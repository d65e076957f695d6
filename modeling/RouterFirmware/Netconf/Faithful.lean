/-
# The entry netconf builds for a record

What a record describes is said here in its own terms (`Match.describes`), one
attribute at a time. The entry agrees attribute by attribute, with exceptions:
an address with bits outside its mask, an outbound interface, whose mask and
inversion come from the inbound one, and the inversions of state, days and
seconds, which no entry can hold. Two products of attributes agree only if the
attributes do, unless both are empty (`attributes_agree`), so the exceptions
give the exact condition.
-/
import RouterFirmware.Netconf.Fw

namespace Router
namespace Netconf

open CMem Bits

/-! ### What a record describes -/

/-- The bit of `netconf_match_t.flags`. -/
def Match.inv (m : Match) (b : BitVec 32) : Bool := hasBit m.flags b

/-- An address is given if the network is not zero. -/
def Side.given (a : Side) : Bool := a.ipaddr &&& a.netmask != 0#32

theorem Side.given_iff (a : Side) : a.given = true ↔ a.ipaddr &&& a.netmask ≠ 0 := bne_iff_ne

/-- The addresses of the network, or those outside. -/
def Side.describes (a : Side) (inv : Bool) (x : Addr) : Bool :=
  !a.given || ((x &&& a.netmask == a.ipaddr &&& a.netmask) ^^ inv)

/-- The interface of that name, or the others; no name is every interface. -/
def Ifname.describes (name : Ifname) (inv : Bool) (dev : Ifname) : Bool :=
  name.str.length == 0 || ((dev == name) ^^ inv)

/-- Whether the match is by TCP or UDP. -/
def Match.ported (m : Match) : Bool := decide (m.ipproto = ipprotoTcp ∨ m.ipproto = ipprotoUdp)

/-- The packets of the protocol that have a header with ports in the ranges. -/
def Match.describesPorts (m : Match) (protocol offset : ℕ) (header : Option Header) : Bool :=
  !m.ported || (decide ((protocol : ℤ) = m.ipproto) && offset == 0 &&
    header.any fun h => portMatch (ntohs2 m.src.ports) h.source (m.inv netconfInvSrcpt) &&
      portMatch (ntohs2 m.dst.ports) h.dest (m.inv netconfInvDstpt))

def Match.describesMac (m : Match) (mac : Option Mac) : Bool :=
  m.mac == 0 || mac.any fun x => (x == m.mac) ^^ m.inv netconfInvMac

def Match.describesState (m : Match) (ctinfo : Ctinfo) : Bool :=
  m.state == 0 || (hasBit m.state ctinfo.bit ^^ m.inv netconfInvState)

/-- The days from the first to the last, around the week. -/
def Match.describesDays (m : Match) (wday : Fin 7) : Bool :=
  !m.timed || (decide ((wday.val + 7 - m.days.1) % 7 ≤ (m.days.2 + 7 - m.days.1) % 7) ^^
    m.inv netconfInvDays)

/-- The seconds from the first to the last, past midnight if the last is not behind the first. -/
def Match.describesSecs (m : Match) (time : ℕ) : Bool :=
  !m.timed || ((if m.secs.1 < m.secs.2 then decide (m.secs.1 ≤ time ∧ time ≤ m.secs.2)
    else decide (m.secs.1 ≤ time ∨ time ≤ m.secs.2)) ^^ m.inv netconfInvSecs)

/-- The packets a record describes. -/
def Match.describes (m : Match) (p : Packet) : Bool :=
  m.src.describes (m.inv netconfInvSrcip) p.saddr && m.dst.describes (m.inv netconfInvDstip) p.daddr &&
  m.inName.describes (m.inv netconfInvIn) p.indev && m.outName.describes (m.inv netconfInvOut) p.outdev &&
  m.describesPorts p.protocol p.offset p.header && m.describesMac p.mac && m.describesState p.ctinfo &&
  m.describesDays p.wday && m.describesSecs p.time

/-! ### The fields of a record that say something -/

/-- The flags that are about something the record matches by. -/
def Match.usedFlags (m : Match) : BitVec 32 :=
  bitIf m.src.given netconfInvSrcip ||| bitIf m.dst.given netconfInvDstip |||
  bitIf (m.inName.str.length != 0) netconfInvIn ||| bitIf (m.outName.str.length != 0) netconfInvOut |||
  (bitIf m.ported netconfInvSrcpt ||| bitIf m.ported netconfInvDstpt) |||
  bitIf (m.mac != 0) netconfInvMac ||| bitIf (m.state != 0) netconfInvState |||
  (bitIf m.timed netconfInvDays ||| bitIf m.timed netconfInvSecs)

/-- A side with the fields cleared that match nothing. -/
def Side.normal (a : Side) (ported : Bool) : Side where
  ipaddr := if a.given then a.ipaddr else 0
  netmask := if a.given then a.netmask else 0
  ports := if ported then a.ports else (0, 0)

def Match.normal (m : Match) : Match :=
  { m with src := m.src.normal m.ported, dst := m.dst.normal m.ported, flags := m.flags &&& m.usedFlags,
           days := if m.timed then m.days else (0, 0) }

/-- A record with the fields cleared that say nothing: an address or mask whose
network is zero, the ports without TCP or UDP, the days without a time, and the
flags about these. -/
def Fw.normal (fw : Fw) : Fw where
  m := fw.m.normal
  act :=
    match fw.act with
    | .nat target ipaddr ports => .nat target ipaddr (if fw.m.ported then ports else (0, 0))
    | act => act

/-! ### The parts of the entry -/

theorem toNat_ntohs (x : UInt16) : (ntohs x).toNat = x.toNat % 256 * 256 + x.toNat / 256 := by
  have hx := x.toNat_lt
  unfold ntohs
  rw [UInt16.toNat_ofNat']
  omega

theorem ntohs_ntohs (x : UInt16) : ntohs (ntohs x) = x := by
  have hx := x.toNat_lt
  apply UInt16.toNat_inj.mp
  rw [toNat_ntohs, toNat_ntohs]
  omega

theorem ntohs2_ntohs2 (x : UInt16 × UInt16) : ntohs2 (ntohs2 x) = x := by
  unfold ntohs2
  rw [ntohs_ntohs, ntohs_ntohs]

theorem Ifname.eq_none {s : Ifname} (h : ¬ s.str.length > 0) : s = .none := by
  obtain ⟨⟨l, hl⟩, hlt⟩ := s
  cases l with
  | nil => rfl
  | cons x l => exact absurd (Nat.succ_pos _) h

theorem Ifname.ite_none (s : Ifname) : (if s.str.length > 0 then s else .none) = s := by
  split_ifs with h
  · rfl
  · exact (Ifname.eq_none h).symm

theorem buildIp_eq (m : Match) : buildIp m =
    { src := if m.src.given then m.src.ipaddr else 0
      dst := if m.dst.given then m.dst.ipaddr else 0
      smsk := if m.src.given then m.src.netmask else 0
      dmsk := if m.dst.given then m.dst.netmask else 0
      iniface := m.inName
      outiface := m.outName
      inifaceMask := maskTo (if m.inName.str.length > 0 then m.inName.str.length + 1 else 0)
      outifaceMask := maskTo (if m.outName.str.length > 0 then m.inName.str.length + 1 else 0)
      proto := if m.ipproto = ipprotoTcp then ipprotoTcp
        else if m.ipproto = ipprotoUdp then ipprotoUdp else 0
      flags := 0
      invflags := bitIf m.src.given (flagTo m.flags netconfInvSrcip iptInvSrcip) |||
        bitIf m.dst.given (flagTo m.flags netconfInvDstip iptInvDstip) |||
        bitIf (m.inName.str.length != 0) (flagTo m.flags netconfInvIn iptInvViaIn) |||
        bitIf (m.outName.str.length != 0) (flagTo m.flags netconfInvIn iptInvViaOut) } := by
  unfold buildIp
  ext1
  all_goals simp only [apply_ite IptIp.src, apply_ite IptIp.dst, apply_ite IptIp.smsk,
    apply_ite IptIp.dmsk, apply_ite IptIp.iniface, apply_ite IptIp.outiface,
    apply_ite IptIp.inifaceMask, apply_ite IptIp.outifaceMask, apply_ite IptIp.proto,
    apply_ite IptIp.flags, apply_ite IptIp.invflags, ite_self, IptIp.blank]
  case src => exact if_congr (Side.given_iff _).symm rfl rfl
  case dst => exact if_congr (Side.given_iff _).symm rfl rfl
  case smsk => exact if_congr (Side.given_iff _).symm rfl rfl
  case dmsk => exact if_congr (Side.given_iff _).symm rfl rfl
  case iniface => exact Ifname.ite_none _
  case outiface => exact Ifname.ite_none _
  case inifaceMask => rw [apply_ite maskTo]; rfl
  case outifaceMask => rw [apply_ite maskTo]; rfl
  case invflags =>
    have hlen : ∀ k : ℕ, (k != 0) = decide (k > 0) := fun k => by cases k <;> rfl
    have hgiven : ∀ a : Side, a.given = decide (a.ipaddr &&& a.netmask ≠ 0) := fun a => by
      rw [Bool.eq_iff_iff, Side.given_iff, decide_eq_true_eq]
    simp only [or_ite, hlen, hgiven]
    rw [BitVec.ofNat_eq_ofNat, BitVec.zero_or]

/-! ### Interface names under a mask -/

/-- A mask of `k` bytes compares the first `k` bytes of the arrays. -/
theorem ifaceDiffers_maskTo (dev name : Ifname) (k : ℕ) :
    ifaceDiffers dev name (maskTo k) = true ↔ ∃ i : Fin 16, i.val < k ∧ dev.pad i ≠ name.pad i := by
  unfold ifaceDiffers
  rw [decide_eq_true_eq]
  refine exists_congr fun i => ?_
  unfold maskTo
  by_cases hi : i.val < k
  · rw [if_pos hi, show (0xff : UInt8) = -1 from rfl, UInt8.and_neg_one, ne_eq, UInt8.xor_eq_zero_iff]
    exact (and_iff_right hi).symm
  · rw [if_neg hi, UInt8.and_zero]
    exact ⟨fun h => absurd rfl h, fun h => absurd h.1 hi⟩

theorem Ifname.pad_eq_zero_iff (s : Ifname) (i : Fin 16) : s.pad i = 0 ↔ s.str.length ≤ i.val := by
  unfold pad CStr.length
  constructor
  · intro h
    by_contra hlt
    rw [List.getD_eq_getElem _ _ (Nat.lt_of_not_le hlt)] at h
    exact s.str.nul_notMem (h ▸ List.getElem_mem _)
  · exact List.getD_eq_default _ _

theorem Ifname.ext_pad {s t : Ifname} (h : ∀ i, s.pad i = t.pad i) : s = t := by
  have hlen : s.str.length = t.str.length := by
    have h1 := (t.pad_eq_zero_iff ⟨_, s.lt⟩).mp ((h _).symm.trans ((s.pad_eq_zero_iff ⟨_, s.lt⟩).mpr le_rfl))
    have h2 := (s.pad_eq_zero_iff ⟨_, t.lt⟩).mp ((h _).trans ((t.pad_eq_zero_iff ⟨_, t.lt⟩).mpr le_rfl))
    exact le_antisymm h2 h1
  have hbytes : s.str = t.str := by
    apply CStr.ext_bytes
    apply List.ext_getElem hlen
    intro i hi hi'
    have hi16 : i < 16 := lt_trans hi s.lt
    have hpad := h ⟨i, hi16⟩
    unfold pad at hpad
    rwa [List.getD_eq_getElem _ _ hi, List.getD_eq_getElem _ _ hi'] at hpad
  obtain ⟨_, _⟩ := s
  obtain ⟨_, _⟩ := t
  cases hbytes
  rfl

/-- A mask that reaches behind the end of the name, or over all a name can
have, compares all of it. -/
theorem ifaceDiffers_of_reach {name : Ifname} {k : ℕ} (hk : name.str.length < k ∨ 15 ≤ k)
    (dev : Ifname) : ifaceDiffers dev name (maskTo k) = !(dev == name) := by
  rw [Bool.eq_iff_iff, ifaceDiffers_maskTo, Bool.not_eq_true', beq_eq_false_iff_ne]
  constructor
  · rintro ⟨i, -, hi⟩ rfl
    exact hi rfl
  · intro hne
    by_contra hall
    push Not at hall
    apply hne
    apply Ifname.ext_pad
    intro i
    by_cases hi : i.val < k
    · exact hall i hi
    · have hname := name.lt
      have hdev := dev.lt
      have hlong : name.str.length ≤ i.val := by omega
      -- behind the mask both arrays are zero
      have hend : dev.str.length ≤ i.val := by
        rcases hk with hk | hk
        · have h0 := hall ⟨_, name.lt⟩ hk
          rw [(name.pad_eq_zero_iff ⟨_, name.lt⟩).mpr le_rfl] at h0
          exact ((dev.pad_eq_zero_iff _).mp h0).trans hlong
        · omega
      rw [(name.pad_eq_zero_iff i).mpr hlong, (dev.pad_eq_zero_iff i).mpr hend]

/-- A name that has the first `k` bytes of `s` and then another one. -/
def Ifname.fork (s : Ifname) (k : Fin 15) : Ifname where
  str := ⟨s.str.bytes.take k ++ [if s.pad ⟨k, by omega⟩ = 97 then 98 else 97], by
    rw [List.mem_append, List.mem_singleton, not_or]
    refine ⟨fun h => s.str.nul_notMem (List.mem_of_mem_take h), ?_⟩
    split_ifs <;> decide⟩
  lt := by
    have hk := k.isLt
    unfold CStr.length
    rw [List.length_append, List.length_take, List.length_singleton]
    omega

/-- A mask that ends before the name does not tell the two apart. -/
theorem Ifname.fork_differs (s : Ifname) {k : Fin 15} (hk : k.val ≤ s.str.length) :
    ifaceDiffers (s.fork k) s (maskTo k) = false ∧ s.fork k ≠ s := by
  unfold CStr.length at hk
  have hlen : (s.str.bytes.take k).length = k := by
    rw [List.length_take]
    omega
  constructor
  · rw [Bool.eq_false_iff, ne_eq, ifaceDiffers_maskTo]
    rintro ⟨i, hi, hne⟩
    apply hne
    unfold pad fork
    rw [List.getD_append _ _ _ _ (by rw [hlen]; exact hi), List.getD_eq_getElem?_getD,
      List.getD_eq_getElem?_getD, List.getElem?_take_of_lt hi]
  · intro h
    have hpad : (s.fork k).pad ⟨k, by omega⟩ = s.pad ⟨k, by omega⟩ := by rw [h]
    have hfork : (s.fork k).pad ⟨k, by omega⟩ = if s.pad ⟨k, by omega⟩ = 97 then 98 else 97 := by
      show (s.str.bytes.take k ++ [_]).getD k 0 = _
      rw [List.getD_append_right _ _ _ _ (by rw [hlen]), hlen, Nat.sub_self]
      rfl
    rw [hfork] at hpad
    split_ifs at hpad with h97
    · rw [h97] at hpad
      exact absurd hpad (by decide)
    · exact h97 hpad.symm

/-! ### One attribute after the other -/

/-- What the entry tests of an address. -/
def Side.tests (a : Side) (inv : Bool) (x : Addr) : Bool :=
  !a.given || ((x &&& a.netmask == a.ipaddr) ^^ inv)

/-- No bits of the address are outside the mask. -/
def Side.masked (a : Side) : Bool := !a.given || a.ipaddr &&& a.netmask == a.ipaddr

theorem Side.tests_eq_iff (a : Side) (inv : Bool) :
    (∀ x, a.tests inv x = a.describes inv x) ↔ a.masked = true := by
  unfold tests describes masked
  cases hg : a.given with
  | false => simp
  | true =>
    simp only [Bool.not_true, Bool.false_or, beq_iff_eq]
    constructor
    · intro h
      have hself := h a.ipaddr
      rw [Bool.bne_left_inj, beq_self_eq_true] at hself
      exact beq_iff_eq.mp hself
    · intro h x
      rw [h]

/-- What the entry tests of the outbound interface: the mask has the length of
the inbound name, and the inversion is that of the inbound interface. -/
def Match.testsOut (m : Match) (dev : Ifname) : Bool :=
  m.outName.str.length == 0 ||
    (!ifaceDiffers dev m.outName (maskTo (m.inName.str.length + 1)) ^^ m.inv netconfInvIn)

/-- The mask of the outbound name is long enough: the inbound name is as long, or
longer, or the mask is as long as a name can be. -/
def Match.outMasked (m : Match) : Bool :=
  m.outName.str.length == 0 || decide (m.outName.str.length ≤ m.inName.str.length) ||
    decide (14 ≤ m.inName.str.length)

def Match.outInverted (m : Match) : Bool :=
  m.outName.str.length == 0 || m.inv netconfInvIn == m.inv netconfInvOut

theorem Match.testsOut_eq_iff (m : Match) :
    (∀ dev, m.testsOut dev = m.outName.describes (m.inv netconfInvOut) dev) ↔
      m.outMasked = true ∧ m.outInverted = true := by
  unfold testsOut Ifname.describes outMasked outInverted
  by_cases h0 : m.outName.str.length = 0
  · simp [h0]
  · have hne : (m.outName.str.length == 0) = false := beq_eq_false_iff_ne.mpr h0
    simp only [hne, Bool.false_or, Bool.or_eq_true, decide_eq_true_eq, beq_iff_eq]
    constructor
    · intro h
      -- the interface of that name tells whether the inversions agree
      have hself := h m.outName
      have hsame : ifaceDiffers m.outName m.outName (maskTo (m.inName.str.length + 1)) = false := by
        rw [Bool.eq_false_iff, ne_eq, ifaceDiffers_maskTo]
        rintro ⟨i, -, hi⟩
        exact hi rfl
      rw [hsame, beq_self_eq_true, Bool.not_false, Bool.bne_right_inj] at hself
      refine ⟨?_, hself⟩
      -- and one that forks off at the end of the mask whether that is long enough
      by_contra hlong
      rw [not_or] at hlong
      obtain ⟨hsame, hfork⟩ := m.outName.fork_differs (k := ⟨m.inName.str.length + 1, by omega⟩)
        (show m.inName.str.length + 1 ≤ _ by omega)
      have hdev := h (m.outName.fork ⟨m.inName.str.length + 1, by omega⟩)
      rw [show ifaceDiffers _ _ (maskTo (m.inName.str.length + 1)) = false from hsame, hself,
        Bool.bne_left_inj] at hdev
      exact hfork (beq_iff_eq.mp hdev.symm)
    · rintro ⟨hle, hinv⟩ dev
      rw [ifaceDiffers_of_reach (by omega), Bool.not_not, hinv]

/-- The inversions of the entry's addresses and interfaces. -/
theorem invflags_buildIp (m : Match) :
    hasBit (buildIp m).invflags iptInvSrcip = (m.src.given && m.inv netconfInvSrcip) ∧
    hasBit (buildIp m).invflags iptInvDstip = (m.dst.given && m.inv netconfInvDstip) ∧
    hasBit (buildIp m).invflags iptInvViaIn = (m.inName.str.length != 0 && m.inv netconfInvIn) ∧
    hasBit (buildIp m).invflags iptInvViaOut = (m.outName.str.length != 0 && m.inv netconfInvIn) ∧
    hasBit (buildIp m).invflags iptInvProto = false ∧ hasBit (buildIp m).invflags iptInvFrag = false := by
  rw [buildIp_eq]
  simp only [hasBit_or, hasBit_bitIf, hasBit_flagTo]
  simp [hasBit, iptInvSrcip, iptInvDstip, iptInvViaIn, iptInvViaOut, iptInvProto, iptInvFrag, Match.inv]

theorem Side.tests_eq (a : Side) (inv : Bool) (x : Addr) :
    (!((x &&& (if a.given then a.netmask else 0) != if a.given then a.ipaddr else 0) ^^
      (a.given && inv))) = a.tests inv x := by
  unfold tests
  cases a.given with
  | false => simp
  | true =>
    cases inv <;> simp [bne]

theorem in_tests_eq (m : Match) (dev : Ifname) :
    (!(ifaceDiffers dev m.inName (maskTo (if m.inName.str.length > 0 then m.inName.str.length + 1 else 0)) ^^
      (m.inName.str.length != 0 && m.inv netconfInvIn))) =
      m.inName.describes (m.inv netconfInvIn) dev := by
  unfold Ifname.describes
  by_cases h0 : m.inName.str.length = 0
  · have hno : ifaceDiffers dev m.inName (maskTo 0) = false := by
      rw [Bool.eq_false_iff, ne_eq, ifaceDiffers_maskTo]
      rintro ⟨i, hi, -⟩
      exact absurd hi (Nat.not_lt_zero _)
    simp [h0, hno]
  · have h1 : (m.inName.str.length == 0) = false := beq_eq_false_iff_ne.mpr h0
    rw [if_pos (Nat.pos_of_ne_zero h0), ifaceDiffers_of_reach (Or.inl (Nat.lt_succ_self _)), bne, h1]
    cases m.inv netconfInvIn <;> simp

theorem out_tests_eq (m : Match) (dev : Ifname) :
    (!(ifaceDiffers dev m.outName (maskTo (if m.outName.str.length > 0 then m.inName.str.length + 1 else 0)) ^^
      (m.outName.str.length != 0 && m.inv netconfInvIn))) = m.testsOut dev := by
  unfold Match.testsOut
  by_cases h0 : m.outName.str.length = 0
  · have hno : ifaceDiffers dev m.outName (maskTo 0) = false := by
      rw [Bool.eq_false_iff, ne_eq, ifaceDiffers_maskTo]
      rintro ⟨i, hi, -⟩
      exact absurd hi (Nat.not_lt_zero _)
    simp [h0, hno]
  · have h1 : (m.outName.str.length == 0) = false := beq_eq_false_iff_ne.mpr h0
    rw [if_pos (Nat.pos_of_ne_zero h0), bne, h1]
    cases m.inv netconfInvIn <;> simp

/-- The ports, with the protocol of the `ipt_ip` part. -/
theorem ports_tests_eq (m : Match) (p : Packet) :
    (!((buildIp m).proto != 0 && (p.protocol != (buildIp m).proto ^^ false)) &&
      (buildPorts m).all (IptMatch.matches p)) = m.describesPorts p.protocol p.offset p.header := by
  have hs : ∀ f g : BitVec 32, hasBit (flagTo m.flags f iptInvSrcpt ||| flagTo m.flags g iptInvDstpt)
      iptInvSrcpt = m.inv f := by
    intro f g
    rw [hasBit_or, hasBit_flagTo, hasBit_flagTo]
    simp [hasBit, iptInvSrcpt, iptInvDstpt, Match.inv]
  have hd : ∀ f g : BitVec 32, hasBit (flagTo m.flags f iptInvSrcpt ||| flagTo m.flags g iptInvDstpt)
      iptInvDstpt = m.inv g := by
    intro f g
    rw [hasBit_or, hasBit_flagTo, hasBit_flagTo]
    simp [hasBit, iptInvSrcpt, iptInvDstpt, Match.inv]
  have hf : ∀ f g : BitVec 32, hasBit (flagTo m.flags f iptInvSrcpt ||| flagTo m.flags g iptInvDstpt)
      iptInvFlags = false := by
    intro f g
    rw [hasBit_or, hasBit_flagTo, hasBit_flagTo]
    simp [hasBit, iptInvSrcpt, iptInvDstpt, iptInvFlags]
  have hproto : ∀ k : ℕ, decide ((p.protocol : ℤ) = k) = (p.protocol == k) := by
    intro k
    rw [Bool.eq_iff_iff, decide_eq_true_eq, beq_iff_eq, Nat.cast_inj]
  have hne : (ipprotoUdp : ℤ) ≠ ipprotoTcp := by decide
  rw [buildIp_eq]
  unfold Match.describesPorts Match.ported buildPorts
  by_cases h1 : m.ipproto = ipprotoTcp
  · simp only [h1, if_true, List.all_cons, List.all_nil, IptMatch.matches, tcpMatch, hs, hd, fwinv, hf,
      hproto]
    cases p.header with
    | none => simp
    | some h => simp [ipprotoTcp, bne, Bool.and_assoc]
  · by_cases h2 : m.ipproto = ipprotoUdp
    · simp only [h2, hne, if_true, if_false, List.all_cons, List.all_nil, IptMatch.matches, udpMatch, hs,
        hd, hproto]
      cases p.header with
      | none => simp
      | some h => simp [ipprotoUdp, bne, Bool.and_assoc]
    · simp [h1, h2]

theorem mac_tests_eq (m : Match) (p : Packet) :
    (buildMac m).all (IptMatch.matches p) = m.describesMac p.mac := by
  unfold buildMac Match.describesMac
  by_cases h0 : m.mac = 0
  · simp [h0]
  · have h1 : (m.mac == 0) = false := beq_eq_false_iff_ne.mpr h0
    rw [if_pos h0, h1]
    cases hm : p.mac with
    | none => simp [IptMatch.matches, hm]
    | some x => simp [IptMatch.matches, hm, Match.inv]

/-- What the entry tests of the connection state. -/
def Match.testsState (m : Match) (ctinfo : Ctinfo) : Bool := m.state == 0 || hasBit m.state ctinfo.bit

theorem state_tests_eq (m : Match) (p : Packet) :
    (buildState m).all (IptMatch.matches p) = m.testsState p.ctinfo := by
  unfold buildState Match.testsState
  by_cases h0 : m.state = 0
  · simp [h0]
  · have h1 : (m.state == 0) = false := beq_eq_false_iff_ne.mpr h0
    rw [if_pos h0, h1, List.all_cons, List.all_nil, Bool.and_true, Bool.false_or, IptMatch.matches,
      hasBit_or, hasBit_or, hasBit_or, hasBit_flagTo, hasBit_flagTo, hasBit_flagTo, hasBit_flagTo]
    cases p.ctinfo with
    | invalid => simp [hasBit, Ctinfo.bit, netconfInvalid]
    | established => simp [hasBit, Ctinfo.bit, netconfEstablished]
    | related => simp [hasBit, Ctinfo.bit, netconfRelated]
    | new => simp [hasBit, Ctinfo.bit, netconfNew]

/-- The day bits of the loop are those of the days from the first to the last. -/
theorem daysLoop_spec : ∀ a b d : Fin 7,
    ((1 <<< d.val) &&& (daysLoop b.val 7 a.val 0 ||| (1 <<< b.val)) != 0) =
      decide ((d.val + 7 - a.val) % 7 ≤ (b.val + 7 - a.val) % 7) := by
  decide

/-- What the entry tests of the time. -/
def Match.testsTime (m : Match) (wday : Fin 7) (time : ℕ) : Bool :=
  !m.timed || (decide ((wday.val + 7 - m.days.1) % 7 ≤ (m.days.2 + 7 - m.days.1) % 7) &&
    if m.secs.1 < m.secs.2 then decide (m.secs.1 ≤ time ∧ time ≤ m.secs.2)
    else decide (m.secs.1 ≤ time ∨ time ≤ m.secs.2))

theorem time_tests_eq {m : Match} (hvalid : m.validTime = true) (p : Packet) :
    (buildTime m).all (IptMatch.matches p) = m.testsTime p.wday p.time := by
  unfold buildTime Match.testsTime
  unfold Match.validTime at hvalid
  cases ht : m.timed with
  | false => simp
  | true =>
    rw [ht] at hvalid
    simp only [Bool.not_true, Bool.false_or, decide_eq_true_eq] at hvalid
    have hdays := daysLoop_spec ⟨m.days.1, hvalid.2.2.1⟩ ⟨m.days.2, hvalid.2.2.2⟩ p.wday
    simp only at hdays
    simp only [if_true, List.all_cons, List.all_nil, Bool.and_true, IptMatch.matches, timeMatch, hdays,
      Bool.not_true, Bool.false_or]
    congr 1
    split_ifs with hlt
    · rw [Bool.eq_iff_iff]
      simp
    · rw [Bool.eq_iff_iff]
      simp only [Bool.not_and, Bool.or_eq_true, Bool.not_eq_true', decide_eq_false_iff_not,
        decide_eq_true_eq, not_lt, gt_iff_lt]

/-- What the entry matches, attribute by attribute. -/
theorem matches_buildEntry {fw : Fw} (hvalid : fw.m.validTime = true) (p : Packet) :
    (buildEntry fw).matches p =
      (fw.m.src.tests (fw.m.inv netconfInvSrcip) p.saddr &&
        fw.m.dst.tests (fw.m.inv netconfInvDstip) p.daddr &&
        fw.m.inName.describes (fw.m.inv netconfInvIn) p.indev && fw.m.testsOut p.outdev &&
        fw.m.describesPorts p.protocol p.offset p.header && fw.m.describesMac p.mac &&
        fw.m.testsState p.ctinfo && fw.m.testsTime p.wday p.time) := by
  obtain ⟨h1, h2, h3, h4, h5, h6⟩ := invflags_buildIp fw.m
  have hfrag : hasBit (buildIp fw.m).flags iptFFrag = false := by
    rw [buildIp_eq]
    exact hasBit_zero _
  unfold Entry.matches buildEntry ipPacketMatch fwinv
  simp only [List.all_append, mac_tests_eq, state_tests_eq, time_tests_eq hvalid, h1, h2, h3, h4, h5, h6,
    hfrag]
  rw [← Side.tests_eq, ← Side.tests_eq, ← in_tests_eq, ← out_tests_eq, ← ports_tests_eq]
  rw [buildIp_eq]
  simp only [Bool.false_and, Bool.bne_false, Bool.not_false, Bool.and_true]
  ac_rfl

/-! ### Reading the entry back -/

theorem tcp?_buildEntry (fw : Fw) : (buildEntry fw).tcp? =
    if fw.m.ipproto = ipprotoTcp then
      some { spts := ntohs2 fw.m.src.ports, dpts := ntohs2 fw.m.dst.ports, option := 0, flgMask := 0,
             flgCmp := 0, invflags := flagTo fw.m.flags netconfInvSrcpt iptInvSrcpt |||
               flagTo fw.m.flags netconfInvDstpt iptInvDstpt }
    else none := by
  unfold Entry.tcp? buildEntry buildPorts buildMac buildState buildTime
  split_ifs <;> rfl

theorem udp?_buildEntry (fw : Fw) : (buildEntry fw).udp? =
    if fw.m.ipproto = ipprotoTcp then none
    else if fw.m.ipproto = ipprotoUdp then
      some { spts := ntohs2 fw.m.src.ports, dpts := ntohs2 fw.m.dst.ports,
             invflags := flagTo fw.m.flags netconfInvSrcpt iptInvSrcpt |||
               flagTo fw.m.flags netconfInvDstpt iptInvDstpt }
    else none := by
  unfold Entry.udp? buildEntry buildPorts buildMac buildState buildTime
  split_ifs <;> rfl

theorem mac?_buildEntry (fw : Fw) : (buildEntry fw).mac? =
    if fw.m.mac ≠ 0 then some (fw.m.mac, fw.m.inv netconfInvMac) else none := by
  unfold Entry.mac? buildEntry buildPorts buildMac buildState buildTime
  split_ifs <;> rfl

theorem state?_buildEntry (fw : Fw) : (buildEntry fw).state? =
    if fw.m.state ≠ 0 then
      some (flagTo fw.m.state netconfInvalid Ctinfo.invalid.bit |||
        flagTo fw.m.state netconfEstablished Ctinfo.established.bit |||
        flagTo fw.m.state netconfRelated Ctinfo.related.bit |||
        flagTo fw.m.state netconfNew Ctinfo.new.bit)
    else none := by
  unfold Entry.state? buildEntry buildPorts buildMac buildState buildTime
  split_ifs <;> rfl

theorem time?_buildEntry (fw : Fw) : (buildEntry fw).time? =
    if fw.m.timed then
      some ({ daysMatch := daysLoop fw.m.days.2 7 fw.m.days.1 0 ||| (1 <<< fw.m.days.2),
              timeStart := fw.m.secs.1, timeStop := fw.m.secs.2 }, fw.m.days)
    else none := by
  unfold Entry.time? buildEntry buildPorts buildMac buildState buildTime
  split_ifs <;> rfl

theorem proto_buildEntry {fw : Fw} (hproto : validIpproto fw.m.ipproto = true) :
    ((buildEntry fw).ip.proto : ℤ) = fw.m.ipproto := by
  show ((buildIp fw.m).proto : ℤ) = _
  rw [buildIp_eq]
  unfold validIpproto at hproto
  simp only [Bool.or_eq_true, beq_iff_eq] at hproto
  simp only
  split_ifs with h1 h2
  · exact h1.symm
  · exact h2.symm
  · rcases hproto with (h | h) | h
    · exact h.symm
    · exact absurd h h1
    · exact absurd h h2

theorem getPorts_buildEntry (fw : Fw) : getPorts (buildEntry fw) =
    if fw.m.ported then
      some ((buildEntry fw).ip.proto, ntohs2 fw.m.src.ports, ntohs2 fw.m.dst.ports,
        flagTo fw.m.flags netconfInvSrcpt iptInvSrcpt ||| flagTo fw.m.flags netconfInvDstpt iptInvDstpt)
    else none := by
  have hip : (buildEntry fw).ip.proto = if fw.m.ipproto = ipprotoTcp then ipprotoTcp
      else if fw.m.ipproto = ipprotoUdp then ipprotoUdp else 0 := by
    show (buildIp fw.m).proto = _
    rw [buildIp_eq]
  unfold getPorts Match.ported
  rw [tcp?_buildEntry, udp?_buildEntry, hip]
  by_cases h1 : fw.m.ipproto = ipprotoTcp
  · simp [h1]
  · by_cases h2 : fw.m.ipproto = ipprotoUdp
    · have hne : ipprotoUdp ≠ ipprotoTcp := by decide
      simp [h2, hne]
    · have h3 : (0 : ℕ) ≠ ipprotoTcp := by decide
      have h4 : (0 : ℕ) ≠ ipprotoUdp := by decide
      simp [h1, h2, h3, h4]

/-- The flags that are read back. The inversion of the outbound interface is
that of the inbound one. -/
def Match.readFlags (m : Match) : BitVec 32 :=
  bitIf (m.src.given && m.inv netconfInvSrcip) netconfInvSrcip |||
  bitIf (m.dst.given && m.inv netconfInvDstip) netconfInvDstip |||
  bitIf (m.inName.str.length != 0 && m.inv netconfInvIn) netconfInvIn |||
  bitIf (m.outName.str.length != 0 && m.inv netconfInvIn) netconfInvOut |||
  (bitIf (m.ported && m.inv netconfInvSrcpt) netconfInvSrcpt |||
    bitIf (m.ported && m.inv netconfInvDstpt) netconfInvDstpt) |||
  bitIf (m.mac != 0 && m.inv netconfInvMac) netconfInvMac

theorem flags_getMatch (fw : Fw) : (getMatch (buildEntry fw)).flags = fw.m.readFlags := by
  obtain ⟨h1, h2, h3, h4, -, -⟩ := invflags_buildIp fw.m
  unfold getMatch Match.readFlags
  rw [getPorts_buildEntry, mac?_buildEntry]
  simp only [flagTo, show (buildEntry fw).ip = buildIp fw.m from rfl, h1, h2, h3, h4]
  congr 1
  · congr 1
    cases fw.m.ported with
    | false => simp [bitIf]
    | true =>
      simp only [if_true, Option.elim_some, hasBit_or, hasBit_bitIf]
      simp [hasBit, iptInvSrcpt, iptInvDstpt, Match.inv]
  · by_cases h0 : fw.m.mac = 0
    · simp [h0, bitIf]
    · have hne : (fw.m.mac != 0) = true := bne_iff_ne.mpr h0
      rw [if_pos h0, hne]
      rfl

theorem used_flags_eq (m : Match) : m.flags &&& m.usedFlags =
    bitIf (m.src.given && m.inv netconfInvSrcip) netconfInvSrcip |||
    bitIf (m.dst.given && m.inv netconfInvDstip) netconfInvDstip |||
    bitIf (m.inName.str.length != 0 && m.inv netconfInvIn) netconfInvIn |||
    bitIf (m.outName.str.length != 0 && m.inv netconfInvOut) netconfInvOut |||
    (bitIf (m.ported && m.inv netconfInvSrcpt) netconfInvSrcpt |||
      bitIf (m.ported && m.inv netconfInvDstpt) netconfInvDstpt) |||
    bitIf (m.mac != 0 && m.inv netconfInvMac) netconfInvMac |||
    bitIf (m.state != 0 && m.inv netconfInvState) netconfInvState |||
    (bitIf (m.timed && m.inv netconfInvDays) netconfInvDays |||
      bitIf (m.timed && m.inv netconfInvSecs) netconfInvSecs) := by
  unfold Match.usedFlags
  simp only [BitVec.and_or_distrib_left, and_bitIf]
  rw [and_bit m.flags 0 (show netconfInvSrcip = BitVec.twoPow 32 0 by decide),
    and_bit m.flags 1 (show netconfInvDstip = BitVec.twoPow 32 1 by decide),
    and_bit m.flags 2 (show netconfInvSrcpt = BitVec.twoPow 32 2 by decide),
    and_bit m.flags 3 (show netconfInvDstpt = BitVec.twoPow 32 3 by decide),
    and_bit m.flags 4 (show netconfInvMac = BitVec.twoPow 32 4 by decide),
    and_bit m.flags 5 (show netconfInvIn = BitVec.twoPow 32 5 by decide),
    and_bit m.flags 6 (show netconfInvOut = BitVec.twoPow 32 6 by decide),
    and_bit m.flags 7 (show netconfInvState = BitVec.twoPow 32 7 by decide),
    and_bit m.flags 8 (show netconfInvDays = BitVec.twoPow 32 8 by decide),
    and_bit m.flags 9 (show netconfInvSecs = BitVec.twoPow 32 9 by decide)]
  simp only [bitIf_bitIf]
  rfl

/-- No flag is lost: the outbound inversion is the inbound one, and the state,
the days and the seconds are not inverted. -/
def Match.flagsKept (m : Match) : Bool :=
  m.outInverted && (m.state == 0 || !m.inv netconfInvState) &&
    (!m.timed || !m.inv netconfInvDays && !m.inv netconfInvSecs)

theorem flags_eq_iff {src dst i o o' spt dpt mac state days secs : Bool} :
    bitIf src netconfInvSrcip ||| bitIf dst netconfInvDstip ||| bitIf i netconfInvIn |||
        bitIf o netconfInvOut ||| (bitIf spt netconfInvSrcpt ||| bitIf dpt netconfInvDstpt) |||
        bitIf mac netconfInvMac =
      bitIf src netconfInvSrcip ||| bitIf dst netconfInvDstip ||| bitIf i netconfInvIn |||
        bitIf o' netconfInvOut ||| (bitIf spt netconfInvSrcpt ||| bitIf dpt netconfInvDstpt) |||
        bitIf mac netconfInvMac ||| bitIf state netconfInvState |||
        (bitIf days netconfInvDays ||| bitIf secs netconfInvSecs) ↔
      o = o' ∧ state = false ∧ days = false ∧ secs = false := by
  constructor
  · intro h
    have hout := congrArg (hasBit · netconfInvOut) h
    have hstate := congrArg (hasBit · netconfInvState) h
    have hdays := congrArg (hasBit · netconfInvDays) h
    have hsecs := congrArg (hasBit · netconfInvSecs) h
    simp only [hasBit_or, hasBit_bitIf] at hout hstate hdays hsecs
    simp [hasBit, netconfInvSrcip, netconfInvDstip, netconfInvSrcpt, netconfInvDstpt, netconfInvMac,
      netconfInvIn, netconfInvOut, netconfInvState, netconfInvDays, netconfInvSecs] at hout hstate hdays hsecs
    exact ⟨hout, hstate, hdays, hsecs⟩
  · rintro ⟨rfl, rfl, rfl, rfl⟩
    simp [bitIf]

theorem readFlags_eq_iff (m : Match) : m.readFlags = m.flags &&& m.usedFlags ↔ m.flagsKept = true := by
  have hout : ∀ z a b : Bool, ((!z && a) = (!z && b)) ↔ (z || a == b) = true := by decide
  have hstate : ∀ z a : Bool, (!z && a) = false ↔ (z || !a) = true := by decide
  have htime : ∀ t a b : Bool, ((t && a) = false ∧ (t && b) = false) ↔ (!t || !a && !b) = true := by decide
  rw [used_flags_eq]
  unfold Match.readFlags Match.flagsKept Match.outInverted
  rw [flags_eq_iff, Bool.and_eq_true, Bool.and_eq_true, ← hstate, ← htime, ← hout, and_assoc]
  rfl

/-! ### The whole entry -/

/-- The connection states a record can name. -/
def knownStates : BitVec 32 := netconfInvalid ||| netconfEstablished ||| netconfRelated ||| netconfNew

theorem state_getMatch (fw : Fw) : (getMatch (buildEntry fw)).state = fw.m.state &&& knownStates := by
  unfold getMatch knownStates
  rw [state?_buildEntry]
  by_cases h0 : fw.m.state = 0
  · simp [h0]
  · simp only [if_pos h0, Option.elim_some, flagTo, hasBit_or, hasBit_bitIf]
    rw [BitVec.and_or_distrib_left, BitVec.and_or_distrib_left, BitVec.and_or_distrib_left,
      and_bit fw.m.state 0 (show netconfInvalid = BitVec.twoPow 32 0 by decide),
      and_bit fw.m.state 1 (show netconfEstablished = BitVec.twoPow 32 1 by decide),
      and_bit fw.m.state 2 (show netconfRelated = BitVec.twoPow 32 2 by decide),
      and_bit fw.m.state 3 (show netconfNew = BitVec.twoPow 32 3 by decide)]
    generalize hasBit fw.m.state netconfInvalid = a
    generalize hasBit fw.m.state netconfEstablished = b
    generalize hasBit fw.m.state netconfRelated = c
    generalize hasBit fw.m.state netconfNew = d
    simp [hasBit, Ctinfo.bit]

/-- A match with other flags and states. -/
def Match.withFlags (m : Match) (state flags : BitVec 32) : Match :=
  ⟨m.ipproto, m.src, m.dst, m.mac, m.inName, m.outName, state, flags, m.days, m.secs⟩

/-- The record read back is the record, but for the flags and the states. -/
theorem getMatch_buildEntry {fw : Fw} (hproto : validIpproto fw.m.ipproto = true) :
    getMatch (buildEntry fw) = fw.m.normal.withFlags (fw.m.state &&& knownStates) fw.m.readFlags := by
  have hip : (buildEntry fw).ip = buildIp fw.m := rfl
  ext1
  case ipproto =>
    show ((getPorts (buildEntry fw)).elim 0 fun r => (r.1 : ℤ)) = fw.m.ipproto
    rw [getPorts_buildEntry]
    cases hp : fw.m.ported with
    | true => exact proto_buildEntry hproto
    | false =>
      unfold Match.ported at hp
      unfold validIpproto at hproto
      simp only [decide_eq_false_iff_not, not_or] at hp
      simp only [Bool.or_eq_true, beq_iff_eq, hp.1, hp.2, or_false] at hproto
      exact hproto.symm
  case src =>
    show (⟨(buildEntry fw).ip.src, (buildEntry fw).ip.smsk,
      (getPorts (buildEntry fw)).elim (0, 0) fun r => ntohs2 r.2.1⟩ : Side) = fw.m.src.normal fw.m.ported
    rw [getPorts_buildEntry, hip, buildIp_eq]
    unfold Side.normal
    cases fw.m.ported with
    | true => simp [ntohs2_ntohs2]
    | false => simp
  case dst =>
    show (⟨(buildEntry fw).ip.dst, (buildEntry fw).ip.dmsk,
      (getPorts (buildEntry fw)).elim (0, 0) fun r => ntohs2 r.2.2.1⟩ : Side) = fw.m.dst.normal fw.m.ported
    rw [getPorts_buildEntry, hip, buildIp_eq]
    unfold Side.normal
    cases fw.m.ported with
    | true => simp [ntohs2_ntohs2]
    | false => simp
  case mac =>
    show ((buildEntry fw).mac?.elim 0 fun i => i.1) = fw.m.mac
    rw [mac?_buildEntry]
    by_cases h0 : fw.m.mac = 0
    · simp [h0]
    · rw [if_pos h0]
      rfl
  case inName =>
    show (buildIp fw.m).iniface = fw.m.inName
    rw [buildIp_eq]
  case outName =>
    show (buildIp fw.m).outiface = fw.m.outName
    rw [buildIp_eq]
  case state => exact state_getMatch fw
  case flags => exact flags_getMatch fw
  case days =>
    show ((buildEntry fw).time?.elim (0, 0) fun i => i.2) = if fw.m.timed then fw.m.days else (0, 0)
    rw [time?_buildEntry]
    cases fw.m.timed <;> rfl
  case secs =>
    show ((buildEntry fw).time?.elim (0, 0) fun i => (i.1.timeStart, i.1.timeStop)) = fw.m.secs
    rw [time?_buildEntry]
    cases ht : fw.m.timed with
    | true => rfl
    | false =>
      unfold Match.timed at ht
      simp only [Bool.or_eq_false_iff, bne_eq_false_iff_eq] at ht
      exact (Prod.ext ht.1 ht.2).symm

theorem natRange_eq (m : Match) (ipaddr : Addr) (ports : UInt16 × UInt16) :
    (natRange m ipaddr ports).minIp = ipaddr ∧
      (m.ported = true → (natRange m ipaddr ports).min = ports.1 ∧ (natRange m ipaddr ports).max = ports.2) := by
  unfold natRange Match.ported
  simp only [decide_eq_true_eq]
  by_cases h0 : ipaddr = 0
  · split_ifs <;> simp_all
  · split_ifs <;> simp_all

/-- The target read back. -/
theorem getAct_buildEntry {fw : Fw} {c : Chain} (hc : fw.act.chain = some c) :
    getAct c (buildEntry fw) = some fw.normal.act := by
  have hproto : ((buildEntry fw).ip.proto = ipprotoTcp ∨ (buildEntry fw).ip.proto = ipprotoUdp) ↔
      fw.m.ported = true := by
    show ((buildIp fw.m).proto = _ ∨ (buildIp fw.m).proto = _) ↔ _
    rw [buildIp_eq]
    unfold Match.ported
    simp only [decide_eq_true_eq]
    split_ifs with h1 h2
    · simp [h1]
    · simp [h2]
    · simp only [h1, h2, or_self, iff_false]
      decide
  unfold getAct Fw.normal buildEntry buildTarget at *
  cases hact : fw.act with
  | filter target dir =>
    rw [hact] at hc
    obtain ⟨d, rfl, rfl⟩ := Option.map_eq_some_iff.mp hc
    cases target <;> cases d <;> rfl
  | nat target ipaddr ports =>
    rw [hact] at hc
    obtain ⟨hip, hrange⟩ := natRange_eq fw.m ipaddr ports
    have hports : (if fw.m.ported = true then ((natRange fw.m ipaddr ports).min,
        (natRange fw.m ipaddr ports).max) else (0, 0)) = if fw.m.ported = true then ports else (0, 0) := by
      split_ifs with hp
      · exact Prod.ext (hrange hp).1 (hrange hp).2
      · rfl
    cases target <;> cases Option.some.inj hc <;> simp only [NatTarget.chain, hproto, hip, hports]
  | app proto dport toPorts =>
    rw [hact] at hc
    cases Option.some.inj hc
    rfl
  | other =>
    rw [hact] at hc
    cases hc

/-- What the record says is stored: no flag is lost, and no state is unknown. -/
def Match.stored (m : Match) : Bool := m.flagsKept && m.state &&& knownStates == m.state

theorem getEntry_buildEntry {fw : Fw} {c : Chain} (hproto : validIpproto fw.m.ipproto = true)
    (hc : fw.act.chain = some c) :
    getEntry c (buildEntry fw) = some fw.normal ↔ fw.m.stored = true := by
  unfold getEntry Match.stored
  rw [proto_buildEntry hproto, hproto, if_pos rfl, getAct_buildEntry hc, Option.map_some,
    getMatch_buildEntry hproto, Option.some_inj, Bool.and_eq_true, beq_iff_eq, ← readFlags_eq_iff]
  constructor
  · intro h
    have hm : fw.m.normal.withFlags (fw.m.state &&& knownStates) fw.m.readFlags = fw.m.normal :=
      congrArg Fw.m h
    exact ⟨congrArg Match.flags hm, congrArg Match.state hm⟩
  · rintro ⟨hflags, hstate⟩
    rw [hflags, hstate]
    rfl

/-! ### Packets that the record describes -/

/-- Two tests of packets, each of its attributes, agree on all of them if they
agree on packets and one of them takes a packet. -/
structure Tests where
  src : Addr → Bool
  dst : Addr → Bool
  indev : Ifname → Bool
  outdev : Ifname → Bool
  ports : ℕ → ℕ → Option Header → Bool
  mac : Option Mac → Bool
  state : Ctinfo → Bool
  time : Fin 7 → ℕ → Bool

def Tests.on (a : Tests) (p : Packet) : Bool :=
  a.src p.saddr && a.dst p.daddr && a.indev p.indev && a.outdev p.outdev &&
    a.ports p.protocol p.offset p.header && a.mac p.mac && a.state p.ctinfo && a.time p.wday p.time

theorem attributes_agree {a b : Tests} {p : Packet} (hp : b.on p = true)
    (h : ∀ p, a.on p = b.on p) :
    (∀ x, a.src x = b.src x) ∧ (∀ x, a.dst x = b.dst x) ∧ ∀ x, a.outdev x = b.outdev x := by
  have ha := (h p).trans hp
  unfold Tests.on at *
  simp only [Bool.and_eq_true] at ha hp
  refine ⟨fun x => ?_, fun x => ?_, fun x => ?_⟩
  · have hx := h { p with saddr := x }
    simpa [ha, hp] using hx
  · have hx := h { p with daddr := x }
    simpa [ha, hp] using hx
  · have hx := h { p with outdev := x }
    simpa [ha, hp] using hx

/-- The tests of the entry and those of the record. -/
def Match.entryTests (m : Match) : Tests where
  src := m.src.tests (m.inv netconfInvSrcip)
  dst := m.dst.tests (m.inv netconfInvDstip)
  indev := m.inName.describes (m.inv netconfInvIn)
  outdev := m.testsOut
  ports := m.describesPorts
  mac := m.describesMac
  state := m.testsState
  time := m.testsTime

def Match.recordTests (m : Match) : Tests where
  src := m.src.describes (m.inv netconfInvSrcip)
  dst := m.dst.describes (m.inv netconfInvDstip)
  indev := m.inName.describes (m.inv netconfInvIn)
  outdev := m.outName.describes (m.inv netconfInvOut)
  ports := m.describesPorts
  mac := m.describesMac
  state := m.describesState
  time wday time := m.describesDays wday && m.describesSecs time

theorem describes_eq (m : Match) (p : Packet) : m.describes p = m.recordTests.on p := by
  unfold Match.describes Tests.on Match.recordTests
  simp only [Bool.and_assoc]

/-- Without the inversions no entry holds, state and time are tested as they are described. -/
theorem testsState_eq {m : Match} (h : m.flagsKept = true) : m.testsState = m.describesState := by
  funext ctinfo
  unfold Match.flagsKept at h
  simp only [Bool.and_eq_true, Bool.or_eq_true] at h
  unfold Match.testsState Match.describesState
  rcases h.1.2 with h0 | hinv
  · rw [h0]
    rfl
  · rw [Bool.not_eq_true'] at hinv
    rw [hinv, Bool.xor_false]

theorem testsTime_eq {m : Match} (h : m.flagsKept = true) (wday : Fin 7) (time : ℕ) :
    m.testsTime wday time = (m.describesDays wday && m.describesSecs time) := by
  unfold Match.flagsKept at h
  simp only [Bool.and_eq_true, Bool.or_eq_true] at h
  unfold Match.testsTime Match.describesDays Match.describesSecs
  rcases h.2 with h0 | hinv
  · rw [Bool.not_eq_true'] at h0
    rw [h0]
    rfl
  · rw [Bool.not_eq_true', Bool.not_eq_true'] at hinv
    rw [hinv.1, hinv.2, Bool.xor_false, Bool.xor_false]
    cases m.timed <;> rfl

/-- No port is in the range, or in none outside it. -/
def noPort (pts : UInt16 × UInt16) (inv : Bool) : Bool :=
  if inv then pts.1 == 0 && pts.2 == 0xffff else decide (pts.2 < pts.1)

theorem noPort_iff (pts : UInt16 × UInt16) (inv : Bool) :
    noPort pts inv = true ↔ ∀ port, portMatch pts port inv = false := by
  unfold noPort portMatch
  cases inv with
  | false =>
    simp only [Bool.false_eq_true, if_false, decide_eq_true_eq, Bool.xor_false, Bool.and_eq_false_imp,
      decide_eq_false_iff_not, UInt16.not_le]
    constructor
    · intro h port hport
      exact UInt16.lt_of_lt_of_le h hport
    · intro h
      exact h pts.1 (UInt16.le_refl _)
  | true =>
    simp only [if_true, Bool.and_eq_true, beq_iff_eq, Bool.xor_true, Bool.not_eq_false', decide_eq_true_eq]
    simp only [UInt16.le_iff_toNat_le, ← UInt16.toNat_inj]
    constructor
    · rintro ⟨h0, h1⟩ port
      have hport := port.toNat_lt
      have hmax : (0xffff : UInt16).toNat = 65535 := rfl
      have hmin : (0 : UInt16).toNat = 0 := rfl
      omega
    · intro h
      have h0 := (h 0).1
      have h1 := (h 0xffff).2
      have hmax : (0xffff : UInt16).toNat = 65535 := rfl
      have hmin : (0 : UInt16).toNat = 0 := rfl
      have hlt := pts.2.toNat_lt
      omega

/-- The record is one that no packet meets, for its ports. -/
def Match.portless (m : Match) : Bool :=
  m.ported && (noPort (ntohs2 m.src.ports) (m.inv netconfInvSrcpt) ||
    noPort (ntohs2 m.dst.ports) (m.inv netconfInvDstpt))

theorem Side.describes_some (a : Side) (inv : Bool) :
    a.describes inv (if inv then 0 else a.ipaddr) = true := by
  unfold describes
  cases hg : a.given with
  | false => rfl
  | true =>
    rw [Side.given_iff] at hg
    cases inv with
    | false => simp
    | true => simpa using Ne.symm hg

theorem Ifname.describes_some (s : Ifname) (inv : Bool) :
    s.describes inv (if inv then .none else s) = true := by
  unfold describes
  by_cases h0 : s.str.length = 0
  · simp [h0]
  · cases inv with
    | false => simp
    | true =>
      have hne : (Ifname.none == s) = false := by
        rw [beq_eq_false_iff_ne]
        rintro rfl
        exact h0 rfl
      simp [hne]

theorem exists_state {m : Match} (h : m.stored = true) : ∃ ctinfo, m.describesState ctinfo = true := by
  unfold Match.stored at h
  rw [Bool.and_eq_true, beq_iff_eq] at h
  rw [← testsState_eq h.1]
  unfold Match.testsState
  by_contra hall
  push Not at hall
  simp only [ne_eq, Bool.or_eq_true, beq_iff_eq, not_or, Bool.not_eq_true] at hall
  -- none of the states is set, so the word is zero
  have hbits : ∀ c : Ctinfo, m.state &&& c.bit = 0#32 := by
    intro c
    have hc := (hall c).2
    unfold hasBit at hc
    exact bne_eq_false_iff_eq.mp hc
  apply (hall .invalid).1
  rw [← h.2]
  show m.state &&& (Ctinfo.invalid.bit ||| Ctinfo.established.bit ||| Ctinfo.related.bit |||
    Ctinfo.new.bit) = 0
  rw [BitVec.and_or_distrib_left, BitVec.and_or_distrib_left, BitVec.and_or_distrib_left, hbits, hbits,
    hbits, hbits]
  rfl

theorem exists_port {pts : UInt16 × UInt16} {inv : Bool} (h : noPort pts inv = false) :
    ∃ port, portMatch pts port inv = true := by
  by_contra hall
  push Not at hall
  have hno := (noPort_iff pts inv).mpr fun port => Bool.eq_false_iff.mpr (hall port)
  rw [h] at hno
  cases hno

theorem exists_ports {m : Match} (hproto : validIpproto m.ipproto = true) (h : m.portless = false) :
    ∃ protocol header, m.describesPorts protocol 0 header = true := by
  unfold Match.portless at h
  unfold Match.describesPorts
  cases hp : m.ported with
  | false => exact ⟨0, none, rfl⟩
  | true =>
    rw [hp, Bool.true_and, Bool.or_eq_false_iff] at h
    obtain ⟨s, hs⟩ := exists_port h.1
    obtain ⟨d, hd⟩ := exists_port h.2
    have hnat : 0 ≤ m.ipproto := by
      unfold validIpproto ipprotoTcp ipprotoUdp at hproto
      simp only [Bool.or_eq_true, beq_iff_eq] at hproto
      omega
    refine ⟨m.ipproto.toNat, some ⟨s, d, 0, fun _ => false⟩, ?_⟩
    simp [hs, hd, Int.toNat_of_nonneg hnat]

theorem exists_time {m : Match} (hvalid : m.validTime = true) :
    ∃ wday time, m.testsTime wday time = true := by
  unfold Match.testsTime
  unfold Match.validTime at hvalid
  cases ht : m.timed with
  | false => exact ⟨0, 0, rfl⟩
  | true =>
    rw [ht] at hvalid
    simp only [Bool.not_true, Bool.false_or, decide_eq_true_eq] at hvalid
    refine ⟨⟨m.days.1, hvalid.2.2.1⟩, m.secs.1, ?_⟩
    have hday : (m.days.1 + 7 - m.days.1) % 7 = 0 := by omega
    simp only [hday, Nat.zero_le, decide_true, Bool.true_and, Bool.not_true, Bool.false_or]
    split_ifs with hlt
    · simp only [le_refl, true_and, decide_eq_true_eq]
      exact hlt.le
    · simp

theorem exists_described {m : Match} (hstored : m.stored = true) (hvalid : m.validTime = true)
    (hproto : validIpproto m.ipproto = true) (hports : m.portless = false) :
    ∃ p, m.describes p = true := by
  have hkept : m.flagsKept = true := (Bool.and_eq_true _ _ ▸ hstored).1
  obtain ⟨ctinfo, hctinfo⟩ := exists_state hstored
  obtain ⟨protocol, header, hheader⟩ := exists_ports hproto hports
  obtain ⟨wday, time, htime⟩ := exists_time hvalid
  refine ⟨{ saddr := if m.inv netconfInvSrcip then 0 else m.src.ipaddr
            daddr := if m.inv netconfInvDstip then 0 else m.dst.ipaddr
            indev := if m.inv netconfInvIn then .none else m.inName
            outdev := if m.inv netconfInvOut then .none else m.outName
            protocol, offset := 0, header
            mac := some (if m.inv netconfInvMac then 0 else m.mac)
            ctinfo, wday, time, other := fun _ => false }, ?_⟩
  have hmac : m.describesMac (some (if m.inv netconfInvMac then 0 else m.mac)) = true := by
    unfold Match.describesMac
    by_cases h0 : m.mac = 0
    · simp [h0]
    · cases m.inv netconfInvMac with
      | false => simp
      | true => simpa using Or.inr fun h => h0 h.symm
  rw [describes_eq]
  unfold Tests.on Match.recordTests
  simp only [Side.describes_some, Ifname.describes_some, hheader, hmac, hctinfo, ← testsTime_eq hkept, htime,
    Bool.and_self]

theorem describesPorts_portless {m : Match} (h : m.portless = true) (protocol offset : ℕ)
    (header : Option Header) : m.describesPorts protocol offset header = false := by
  unfold Match.portless at h
  rw [Bool.and_eq_true, Bool.or_eq_true, noPort_iff, noPort_iff] at h
  unfold Match.describesPorts
  rw [h.1]
  cases header with
  | none => simp
  | some x =>
    rcases h.2 with hs | hd
    · simp [hs]
    · simp [hd]

/-- The entry is one for the record: what the record says can be stored, and
either no packet has the ports it wants, or the addresses have no bits outside
their masks and the mask of the outbound name is long enough. -/
def Match.translated (m : Match) : Bool :=
  m.stored && (m.portless || (m.src.masked && m.dst.masked && m.outMasked))

/-- The entry takes exactly the packets the record describes, and the record
`netconf_get_fw` reads back from it is the record. -/
def Faithful (fw : Fw) (c : Chain) (e : Entry) : Prop :=
  (∀ p, e.matches p = fw.m.describes p) ∧
    netconfGetFw (Function.update (fun _ => []) c [e]) = [fw.normal]

theorem netconfGetFw_single (c : Chain) (e : Entry) :
    netconfGetFw (Function.update (fun _ => []) c [e]) = (getEntry c e).toList := by
  unfold netconfGetFw
  cases c <;> cases h : getEntry _ e <;> simp [Function.update, h]

theorem faithful_iff {fw : Fw} {c : Chain} (hproto : validIpproto fw.m.ipproto = true)
    (hvalid : fw.m.validTime = true) (hc : fw.act.chain = some c) :
    Faithful fw c (buildEntry fw) ↔ fw.m.translated = true := by
  have hmatches : ∀ p, (buildEntry fw).matches p = fw.m.entryTests.on p := matches_buildEntry hvalid
  have hget : (getEntry c (buildEntry fw)).toList = [fw.normal] ↔ fw.m.stored = true := by
    rw [← getEntry_buildEntry hproto hc, Option.toList_eq_singleton_iff]
  unfold Faithful Match.translated
  rw [netconfGetFw_single, hget, Bool.and_eq_true, and_comm]
  refine and_congr_right fun hstored => ?_
  have hkept : fw.m.flagsKept = true := (Bool.and_eq_true _ _ ▸ hstored).1
  have hout : fw.m.outInverted = true := by
    unfold Match.flagsKept at hkept
    simp only [Bool.and_eq_true] at hkept
    exact hkept.1.1
  rw [Bool.or_eq_true, Bool.and_eq_true, Bool.and_eq_true]
  constructor
  · intro h
    cases hp : fw.m.portless with
    | true => exact Or.inl rfl
    | false =>
      obtain ⟨p, hp⟩ := exists_described hstored hvalid hproto hp
      rw [describes_eq] at hp
      obtain ⟨hsrc, hdst, hdev⟩ := attributes_agree hp fun p =>
        ((hmatches p).symm.trans (h p)).trans (describes_eq _ p)
      exact Or.inr ⟨⟨(Side.tests_eq_iff _ _).mp hsrc, (Side.tests_eq_iff _ _).mp hdst⟩,
        ((Match.testsOut_eq_iff _).mp hdev).1⟩
  · rintro (hp | ⟨⟨hsrc, hdst⟩, hmask⟩) p
    · rw [hmatches, describes_eq]
      unfold Tests.on Match.entryTests Match.recordTests
      simp only [describesPorts_portless hp, Bool.and_false, Bool.false_and]
    · rw [hmatches, describes_eq]
      unfold Tests.on Match.entryTests Match.recordTests
      simp only [(Side.tests_eq_iff _ _).mpr hsrc, (Side.tests_eq_iff _ _).mpr hdst,
        (Match.testsOut_eq_iff _).mpr ⟨hmask, hout⟩, testsState_eq hkept, testsTime_eq hkept]

/-- **The entry for a record**: where `netconf_add_fw` inserts an entry, the entry
takes exactly the packets the record describes and reads back as the record, if
and only if the record is one that translates. -/
theorem add_fw_faithful {errno : ℤ} {t t' : Tables} {fw : Fw}
    (h : netconfAddFw errno t fw = (0, t')) (hins : t' ≠ t) :
    ∃ c e l₁ l₂, t c = l₁ ++ l₂ ∧ t' = Function.update t c (l₁ ++ e :: l₂) ∧
      (Faithful fw c e ↔ fw.m.translated = true) := by
  rcases netconfAddFw_cases errno t fw with ⟨hproto, hvalid, c, hc, hadd⟩ | ⟨-, hsame⟩
  · rw [hadd] at h
    cases h
    have hsplit := List.take_append_drop (insertAt (buildEntry fw) (t c)) (t c)
    refine ⟨c, buildEntry fw, _, _, hsplit.symm, ?_, faithful_iff hproto hvalid hc⟩
    rw [insertEntry_eq]
  · rw [h] at hsame
    exact absurd hsame hins

theorem length_br0 : (CStr.lit "br0").length < 16 := by decide

/-- TCP from 192.168.1.0/24, coming in by `br0`. -/
def lanRule : Fw where
  m := { ipproto := 6, src := ⟨0xc0a80100, 0xffffff00, (0, 0xffff)⟩, dst := ⟨0, 0, (0, 0xffff)⟩, mac := 0,
         inName := ⟨.lit "br0", length_br0⟩, outName := .none, state := 0, flags := 0, days := (0, 0),
         secs := (0, 0) }
  act := .filter .accept (some .forward)

theorem add_fw_faithful_lan :
    netconfAddFw 0 (fun _ => []) lanRule =
        (0, Function.update (fun _ => []) .forward [buildEntry lanRule]) ∧
      ∃ c e l₁ l₂, (fun _ => [] : Tables) c = l₁ ++ l₂ ∧
        Function.update (fun _ => []) .forward [buildEntry lanRule] =
          Function.update (fun _ => []) c (l₁ ++ e :: l₂) ∧
        (Faithful lanRule c e ↔ lanRule.m.translated = true) := by
  have hadd : netconfAddFw 0 (fun _ => []) lanRule =
      (0, Function.update (fun _ => []) .forward [buildEntry lanRule]) :=
    netconfAddFw_eq (by decide) (by decide) rfl
  refine ⟨hadd, add_fw_faithful hadd fun heq => ?_⟩
  have hforward := congrFun heq .forward
  rw [Function.update_self] at hforward
  cases hforward

/-- All that leaves by `vlan1`; no inbound interface is given. -/
def outRule : Fw where
  m := { ipproto := 0, src := ⟨0, 0, (0, 0)⟩, dst := ⟨0, 0, (0, 0)⟩, mac := 0, inName := .none,
         outName := ⟨.lit "vlan1", by decide⟩, state := 0, flags := 0, days := (0, 0), secs := (0, 0) }
  act := .filter .drop (some .forward)

/-- A packet from `br0` to `vlan2`. -/
def toVlan2 : Packet where
  saddr := 0xc0a80102
  daddr := 0x08080808
  indev := ⟨.lit "br0", length_br0⟩
  outdev := ⟨.lit "vlan2", by decide⟩
  protocol := 6
  offset := 0
  header := some ⟨1025, 80, 0x02, fun _ => false⟩
  mac := none
  ctinfo := .new
  wday := sunday
  time := 0
  other := fun _ => false

/-- The mask of the outbound name has the length of the inbound one, so the
entry takes all that leaves by an interface whose name starts with `v`. -/
theorem add_fw_unfaithful :
    netconfAddFw 0 (fun _ => []) outRule =
        (0, Function.update (fun _ => []) .forward [buildEntry outRule]) ∧
      (buildEntry outRule).matches toVlan2 = true ∧ outRule.m.describes toVlan2 = false :=
  ⟨netconfAddFw_eq (by decide) (by decide) rfl, by decide, by decide⟩

end Netconf
end Router
