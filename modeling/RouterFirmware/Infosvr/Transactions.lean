/-
# Commands, once and answered

A client that hears no answer sends its command again, with the same `OpCode` and `Info`. `processPacket` recognises
the copy as long as `pdubuf_res` still stands for the transaction, but then only returns the buffer, and `processReq`
does not look at what it returns: the copy is not answered. Once another packet has been answered in between, GETINFO
included, the copy is not recognised, and the command runs again. So every command runs once and is answered exactly
if no command is repeated, none has the transaction id of the packet before it, and all are commands the daemon knows,
with a line that fits its buffer (`served_iff`).
-/
import RouterFirmware.Infosvr.Packet

namespace Router
namespace Infosvr

open CMem CText Run

variable {κ : Type*} {W : Type*}

/-- Two packets of one transaction. -/
def SameTransaction (a b : Bytes) : Prop :=
  opCode (received a) = opCode (received b) ∧ info (received a) = info (received b)

instance (a b : Bytes) : Decidable (SameTransaction a b) := by unfold SameTransaction; infer_instance

/-- A datagram, and the client it comes from. -/
abbrev Arrival (κ : Type*) := κ × Bytes

/-- A datagram that has been served, with what was seen of it. -/
abbrev Served (κ : Type*) := Arrival κ × List Event

/-- The daemon serves a datagram. -/
def serves (h : Host W) (c : Sysparam) (s : Daemon W) (e : Served κ) (s' : Daemon W) : Prop :=
  processReq h c s e.1.2 = some (s', e.2)

/-! ### What is claimed -/

/-- The lines that have run, with what was read back. -/
def runs (es : List Event) : List (CStr × Bytes) :=
  es.filterMap fun
    | .ran line out => some (line, out)
    | .sent _ => none

/-- The result that a response carries. -/
def resultIn (pdu : Bytes) : Bytes := load (received pdu) 16 (le16 (received pdu) 14).toNat

/-- A response to a command, with the result `out`, is among what was seen. -/
def Answers (d : Bytes) (es : List Event) (out : Bytes) : Prop :=
  ∃ pdu, .sent pdu ∈ es ∧ packetType (received pdu) = NET_PACKET_TYPE_RES ∧ SameTransaction pdu d ∧ resultIn pdu = out

section Claim

variable [DecidableEq κ]

/-- The commands of a client. -/
def commandsOf (k : κ) (l : List (Served κ)) : List (Served κ) :=
  l.filter fun e => IsCommand e.1.2 ∧ e.1.1 = k

/-- The copies of a command its client sends before the next one. -/
def copies (a : Arrival κ) (l : List (Served κ)) : List (Served κ) :=
  (commandsOf a.1 l).takeWhile fun e => SameTransaction e.1.2 a.2

/-- All the copies of the command `e`, among what was served before and after it. -/
def transaction (pre : List (Served κ)) (e : Served κ) (post : List (Served κ)) : List (Served κ) :=
  (copies e.1 pre.reverse).reverse ++ e :: copies e.1 post

/-- The copies of the command `e` run it once, and `e` is answered with its result. -/
def ServedOnce (pre : List (Served κ)) (e : Served κ) (post : List (Served κ)) : Prop :=
  ∃ out, (transaction pre e post).flatMap (fun f => runs f.2) = [(cmdstr (received e.1.2), out)] ∧
    Answers e.1.2 e.2 out

/-- Every command of the datagrams `as` is served once. -/
def AlwaysServed (h : Host W) (c : Sysparam) (w : W) (as : List (Arrival κ)) : Prop :=
  ∃ l s, l.map Prod.fst = as ∧ Trace (serves h c) (boot w) l s ∧
    ∀ pre e post, l = pre ++ e :: post → IsCommand e.1.2 → ServedOnce pre e post

/-- The last discovery packet. -/
def lastPacket (as : List (Arrival κ)) : Option (Arrival κ) := (as.filter fun a => IsPacket a.2).getLast?

/-- The last command of a client. -/
def lastCommand (k : κ) (as : List (Arrival κ)) : Option (Arrival κ) :=
  (as.filter fun a => IsCommand a.2 ∧ a.1 = k).getLast?

end Claim

/-! ### One datagram -/

section Step

variable {h : Host W} {c : Sysparam} {s s' : Daemon W} {d : Bytes} {es : List Event}

theorem mem_sendInfo (m : Mem) : Event.sent (load m 0 INFO_PDU_LENGTH) ∈ sendInfo c m :=
  List.mem_replicate.mpr ⟨c.intfCount_pos.ne', rfl⟩

@[simp] theorem runs_sendInfo (m : Mem) : runs (sendInfo c m) = [] := by
  simp [runs, sendInfo]

/-- What is sent reads as the buffer does. -/
theorem received_load {m : Mem} {i : ℕ} (hi : i < INFO_PDU_LENGTH) : received (load m 0 INFO_PDU_LENGTH) i = m i := by
  rw [received, List.take_of_length_le (by simp), write_load m _ hi, Nat.zero_add]

theorem length_resultOf_le : (resultOf h s d).length ≤ 420 := by
  rw [resultOf, syscmdRes, List.length_take]
  exact min_le_left _ _

theorem resultIn_responseTo : resultIn (load (responseTo h c s d) 0 INFO_PDU_LENGTH) = resultOf h s d := by
  have hlen := length_resultOf_le (h := h) (s := s) (d := d)
  have hres : Holds (responseTo h c s d) 16 (resultOf h s d) :=
    holds_write_of_ge (holds_write_same _ _ _) (by simp)
  have hl : le16 (received (load (responseTo h c s d) 0 INFO_PDU_LENGTH)) 14 =
      UInt16.ofNat (resultOf h s d).length :=
    (le16_congr fun i _ hi => received_load (by unfold INFO_PDU_LENGTH; omega)).trans (le16_put16 _ _ _)
  have hn : (UInt16.ofNat (resultOf h s d).length).toNat = (resultOf h s d).length := by
    rw [UInt16.toNat_ofNat']
    omega
  rw [resultIn, hl, hn]
  exact load_of_holds (hres.congr fun i _ hi => received_load (by unfold INFO_PDU_LENGTH; omega))

/-- The response to a command that has run answers it. -/
theorem answers_responseTo (hes : ∀ e ∈ sendInfo c (responseTo h c s d), e ∈ es) :
    Answers d es (resultOf h s d) := by
  have hlt : ∀ i, i < 8 → received (load (responseTo h c s d) 0 INFO_PDU_LENGTH) i = responseTo h c s d i :=
    fun i hi => received_load (by unfold INFO_PDU_LENGTH; omega)
  refine ⟨_, hes _ (mem_sendInfo _), ?_, ⟨?_, ?_⟩, resultIn_responseTo⟩
  · rw [packetType, hlt 1 (by omega), responseTo_of_lt (by omega), resHdrEx, write_of_lt (by omega), put32,
      write_of_lt (by omega), resHdr, put16, write_of_lt (by omega)]
    simp [write]
  · exact (le16_congr fun i _ hi => hlt i (by omega)).trans opCode_responseTo
  · exact (le32_congr fun i _ hi => hlt i (by omega)).trans info_responseTo

/-- A command is not seen at all, or it runs and is answered. -/
theorem command_effect (hc : IsCommand d) (hs : processReq h c s d = some (s', es)) :
    es = [] ∧ (opCode (received d) = NET_CMD_ID_MANU_CMD → IsLast s d) ∨
      ¬IsLast s d ∧ opCode (received d) = NET_CMD_ID_MANU_CMD ∧ Fits d ∧
      runs es = [(cmdstr (received d), resultOf h s d)] ∧ Answers d es (resultOf h s d) := by
  have he := processReq_effect (h := h) (c := c) (s := s) (d := d)
  rw [hs] at he
  cases he with
  | ignored hn => exact absurd hc.1 hn
  | getinfo _ hg => exact absurd hg hc.2
  | duplicate _ hl => exact .inl ⟨rfl, fun _ => hl⟩
  | unknown _ _ hm => exact .inl ⟨rfl, fun hm' => absurd hm' hm⟩
  | executed _ hl hm hf =>
    refine .inr ⟨hl, hm, hf, ?_, @answers_responseTo _ h c s d _ fun e he => ?_⟩
    · simp [runs, sendInfo]
    · exact List.mem_cons_of_mem _ (List.mem_append_right _ he)

end Step

/-! ### What the buffer remembers -/

section Memory

variable {h : Host W} {c : Sysparam} {w : W} {s s' : Daemon W} {l : List (Served κ)} {as : List (Arrival κ)}

/-- The buffer stands for the last discovery packet, but not for the `Info` of a GETINFO. -/
def Remembers (as : List (Arrival κ)) (s : Daemon W) : Prop :=
  match lastPacket as with
  | none => opCode s.res = 0
  | some q => opCode s.res = opCode (received q.2) ∧
      (opCode (received q.2) ≠ NET_CMD_ID_GETINFO → info s.res = info (received q.2))

theorem lastPacket_snoc (as : List (Arrival κ)) (a : Arrival κ) :
    lastPacket (as ++ [a]) = if IsPacket a.2 then some a else lastPacket as := by
  unfold lastPacket
  rw [List.filter_append]
  split_ifs with hp
  · rw [List.filter_cons_of_pos (by simpa using hp), List.filter_nil, List.getLast?_concat]
  · rw [List.filter_cons_of_neg (by simpa using hp), List.filter_nil, List.append_nil]

theorem Remembers.step {a : Arrival κ} {es : List Event} (hr : Remembers as s)
    (hs : processReq h c s a.2 = some (s', es)) : Remembers (as ++ [a]) s' := by
  have he := processReq_effect (h := h) (c := c) (s := s) (d := a.2)
  rw [hs] at he
  unfold Remembers
  rw [lastPacket_snoc]
  cases he with
  | ignored hn =>
    rw [if_neg hn]
    exact hr
  | getinfo hp hg =>
    rw [if_pos hp]
    exact ⟨opCode_fillInfo.trans opCode_resHdr, fun hne => absurd hg hne⟩
  | duplicate hc hl =>
    rw [if_pos hc.1]
    exact ⟨hl.1, fun _ => hl.2⟩
  | unknown hc =>
    rw [if_pos hc.1]
    exact ⟨opCode_resHdrEx, fun _ => info_resHdrEx⟩
  | executed hc =>
    rw [if_pos hc.1]
    exact ⟨opCode_responseTo, fun _ => info_responseTo⟩

theorem remembers (hl : Trace (serves h c) (boot w) l s) : Remembers (l.map Prod.fst) s := by
  have h0 : Remembers (([] : List (Served κ)).map Prod.fst) (boot w) := rfl
  refine hl.inv (I := fun l s => Remembers (l.map Prod.fst) s) h0 fun l s e s' hr hs => ?_
  rw [List.map_append]
  exact hr.step hs

/-- A command that the daemon knows is a duplicate to it exactly if it is of the transaction of the packet before. -/
theorem Remembers.isLast_iff {d : Bytes} (hr : Remembers as s) (hm : opCode (received d) = NET_CMD_ID_MANU_CMD) :
    IsLast s d ↔ ∃ q ∈ lastPacket as, SameTransaction q.2 d := by
  unfold Remembers at hr
  generalize lastPacket as = last at hr ⊢
  cases last with
  | none =>
    refine ⟨fun hl => ?_, fun ⟨_, hq, _⟩ => absurd hq (by simp)⟩
    rw [IsLast, hr, hm] at hl
    exact absurd hl.1 (by decide)
  | some q =>
    obtain ⟨ho, hi⟩ := hr
    have hne : opCode (received q.2) = NET_CMD_ID_MANU_CMD → opCode (received q.2) ≠ NET_CMD_ID_GETINFO := fun h' =>
      by rw [h']; decide
    constructor
    · intro hl
      have hq := ho.symm.trans hl.1
      exact ⟨q, rfl, hq, (hi (hne (hq.trans hm))).symm.trans hl.2⟩
    · rintro ⟨q', hq', hsame⟩
      cases hq'
      exact ⟨ho.trans hsame.1, (hi (hne (hsame.1.trans hm))).trans hsame.2⟩

end Memory

/-! ### A run -/

section Run

variable [DecidableEq κ] {h : Host W} {c : Sysparam} {w : W} {s s' : Daemon W} {l : List (Served κ)}
  {as : List (Arrival κ)}

/-- A list whose last element of a kind is known. -/
theorem getLast?_filter {α : Type*} {p : α → Bool} {l : List α} {q : α} (hq : (l.filter p).getLast? = some q) :
    ∃ l₁ l₂, l = l₁ ++ q :: l₂ ∧ p q = true ∧ l₂.filter p = [] := by
  induction l using List.reverseRecOn with
  | nil => simp at hq
  | append_singleton l a ih =>
    rw [List.filter_append] at hq
    by_cases ha : p a = true
    · rw [List.filter_cons_of_pos ha, List.filter_nil, List.getLast?_concat] at hq
      cases hq
      exact ⟨l, [], rfl, ha, rfl⟩
    · have hn : [a].filter p = [] := by simp [ha]
      rw [hn, List.append_nil] at hq
      obtain ⟨l₁, l₂, rfl, hpq, hl₂⟩ := ih hq
      exact ⟨l₁, l₂ ++ [a], by simp, hpq, by rw [List.filter_append, hl₂, hn, List.append_nil]⟩

/-- The commands of a client among the datagrams. -/
theorem map_commandsOf (k : κ) (l : List (Served κ)) :
    (commandsOf k l).map Prod.fst = (l.map Prod.fst).filter fun a => IsCommand a.2 ∧ a.1 = k := by
  rw [commandsOf, List.filter_map]
  rfl

/-- A command that follows one of its own transaction has a copy before it. -/
theorem copies_of_lastCommand {a q : Arrival κ} (hq : lastCommand a.1 (l.map Prod.fst) = some q)
    (hsame : SameTransaction q.2 a.2) :
    ∃ l₁ f l₂, l = l₁ ++ f :: l₂ ∧ f.1 = q ∧ IsCommand f.1.2 ∧ f ∈ copies a l.reverse := by
  obtain ⟨as₁, as₂, has, hpq, has₂⟩ := getLast?_filter hq
  obtain ⟨l₁, l', rfl, rfl, hl'⟩ := List.map_eq_append_iff.mp has
  obtain ⟨f, l₂, rfl, rfl, rfl⟩ := List.map_eq_cons_iff.mp hl'
  have hf : IsCommand f.1.2 ∧ f.1.1 = a.1 := by simpa using hpq
  refine ⟨l₁, f, l₂, rfl, rfl, hf.1, ?_⟩
  have hnone : commandsOf a.1 l₂.reverse = [] := by
    rw [commandsOf, List.filter_reverse, List.reverse_eq_nil_iff]
    refine List.map_eq_nil_iff.mp ((map_commandsOf a.1 l₂).trans has₂)
  have hcom : commandsOf a.1 (l₁ ++ f :: l₂).reverse = f :: commandsOf a.1 l₁.reverse := by
    rw [List.reverse_append, List.reverse_cons, List.append_assoc, commandsOf, List.filter_append, ← commandsOf, hnone,
      List.nil_append, List.singleton_append, List.filter_cons_of_pos (by simpa using hf)]
    rfl
  rw [copies, hcom, List.takeWhile_cons_of_pos (by simpa using hsame)]
  exact List.mem_cons_self

/-- A command whose client's last command was of another transaction has no copy before it. -/
theorem copies_eq_nil {a : Arrival κ} (hlast : ∀ q ∈ lastCommand a.1 (l.map Prod.fst), ¬SameTransaction q.2 a.2) :
    copies a l.reverse = [] := by
  have hrev : commandsOf a.1 l.reverse = (commandsOf a.1 l).reverse := List.filter_reverse
  rw [copies, hrev]
  cases hc : (commandsOf a.1 l).reverse with
  | nil => rfl
  | cons f t =>
    refine List.takeWhile_cons_of_neg ?_
    have hf : (commandsOf a.1 l).getLast? = some f := by
      rw [← List.head?_reverse, hc]
      rfl
    have hq : lastCommand a.1 (l.map Prod.fst) = some f.1 := by
      rw [lastCommand, ← map_commandsOf, List.getLast?_map, hf]
      rfl
    simpa using hlast f.1 hq

/-- What the daemon needs of every command: it is one the daemon knows, with a line that fits, and neither the packet
before it nor the command of its client before it is of its transaction. -/
def OnlyNew (as : List (Arrival κ)) : Prop :=
  ∀ pre a post, as = pre ++ a :: post → IsCommand a.2 →
    opCode (received a.2) = NET_CMD_ID_MANU_CMD ∧ Fits a.2 ∧
      (∀ q ∈ lastPacket pre, ¬SameTransaction q.2 a.2) ∧ ∀ q ∈ lastCommand a.1 pre, ¬SameTransaction q.2 a.2

theorem OnlyNew.init {a : Arrival κ} (ho : OnlyNew (as ++ [a])) : OnlyNew as := by
  intro pre b post hpre hb
  exact ho pre b (post ++ [a]) (by simp [hpre]) hb

/-- Datagrams with new commands only are all served. -/
theorem OnlyNew.exists_trace (ho : OnlyNew as) (w : W) :
    ∃ l s, l.map Prod.fst = as ∧ Trace (serves h c) (boot w) l s := by
  induction as using List.reverseRecOn with
  | nil => exact ⟨[], boot w, rfl, .nil⟩
  | append_singleton as a ih =>
    obtain ⟨l, s, hl, htr⟩ := ih ho.init
    have he := processReq_effect (h := h) (c := c) (s := s) (d := a.2)
    generalize hr : processReq h c s a.2 = r at he
    cases r with
    | none =>
      cases he with
      | overflow hc _ _ hf => exact absurd (ho as a [] rfl hc).2.1 hf
    | some r =>
      refine ⟨l ++ [(a, r.2)], r.1, by simp [hl], htr.snoc ?_⟩
      exact hr

/-- A command that is served once runs when it comes. -/
theorem ServedOnce.ran {pre post : List (Served κ)} {e : Served κ} (hs : ServedOnce pre e post)
    (htr : Trace (serves h c) (boot w) (pre ++ e :: post) s) (hc : IsCommand e.1.2) :
    ∃ s₁, Trace (serves h c) (boot w) pre s₁ ∧ ¬IsLast s₁ e.1.2 ∧
      opCode (received e.1.2) = NET_CMD_ID_MANU_CMD ∧ Fits e.1.2 ∧ runs e.2 ≠ [] := by
  obtain ⟨s₁, s₂, h1, h2, -⟩ := htr.split rfl
  obtain ⟨out, -, pdu, hpdu, -⟩ := hs
  rcases command_effect hc h2 with ⟨hnil, -⟩ | ⟨hl, hm, hf, hr, -⟩
  · rw [hnil] at hpdu
    simp at hpdu
  · exact ⟨s₁, h1, hl, hm, hf, by simp [hr]⟩

/-- A command that runs although a copy of it has run is not served once. -/
theorem ServedOnce.notMem_copies {pre post : List (Served κ)} {e f : Served κ} (hs : ServedOnce pre e post)
    (he : runs e.2 ≠ []) (hf : runs f.2 ≠ []) : f ∉ copies e.1 pre.reverse := by
  intro hmem
  obtain ⟨out, hout, -⟩ := hs
  have hlen := congrArg List.length hout
  have h1 : 0 < ((copies e.1 pre.reverse).reverse.flatMap fun f => runs f.2).length := by
    refine List.length_pos_iff.mpr fun hnil => hf ?_
    exact List.flatMap_eq_nil_iff.mp hnil f (List.mem_reverse.mpr hmem)
  have h2 : 0 < (runs e.2).length := List.length_pos_iff.mpr he
  rw [transaction, List.flatMap_append, List.flatMap_cons, List.length_append, List.length_append,
    List.length_singleton] at hlen
  omega

/-- Where all commands are new, none has a copy after it. -/
theorem OnlyNew.copies_eq_nil {pre post : List (Served κ)} {e : Served κ} (hc : IsCommand e.1.2)
    (ho : OnlyNew ((pre ++ e :: post).map Prod.fst)) : copies e.1 post = [] := by
  unfold copies
  cases hf : commandsOf e.1.1 post with
  | nil => rfl
  | cons f t =>
    obtain ⟨p₁, p₂, rfl, hp₁, hpf, -⟩ := List.filter_eq_cons_iff.mp hf
    have hpf : IsCommand f.1.2 ∧ f.1.1 = e.1.1 := by simpa using hpf
    have hnil : commandsOf f.1.1 p₁ = [] := by
      rw [hpf.2]
      exact List.filter_eq_nil_iff.mpr hp₁
    have hlast : lastCommand f.1.1 ((pre ++ e :: p₁).map Prod.fst) = some e.1 := by
      rw [lastCommand, ← map_commandsOf, commandsOf, List.filter_append,
        List.filter_cons_of_pos (by simpa using ⟨hc, hpf.2.symm⟩), ← commandsOf, ← commandsOf, hnil]
      simp
    have hnew := (ho ((pre ++ e :: p₁).map Prod.fst) f.1 (p₂.map Prod.fst) (by simp) hpf.1).2.2.2 e.1 hlast
    refine List.takeWhile_cons_of_neg ?_
    simp only [decide_eq_true_eq]
    exact fun hsame => hnew ⟨hsame.1.symm, hsame.2.symm⟩

/-- Every command runs once and every copy of it is answered exactly if no command has a copy, none has the
transaction of the packet before it, and the daemon knows all of them and has room for their lines. -/
theorem served_iff (h : Host W) (c : Sysparam) (w : W) (as : List (Arrival κ)) :
    AlwaysServed h c w as ↔ OnlyNew as := by
  constructor
  · rintro ⟨l, s, rfl, htr, hserved⟩ pre a post has hc
    obtain ⟨l₁, l', rfl, rfl, hl'⟩ := List.map_eq_append_iff.mp has
    obtain ⟨e, l₂, rfl, rfl, rfl⟩ := List.map_eq_cons_iff.mp hl'
    have hs := hserved l₁ e l₂ rfl hc
    obtain ⟨s₁, h1, hl, hm, hf, he⟩ := hs.ran htr hc
    refine ⟨hm, hf, fun q hq hsame => hl (((remembers h1).isLast_iff hm).mpr ⟨q, hq, hsame⟩), fun q hq hsame => ?_⟩
    obtain ⟨p₁, f, p₂, rfl, rfl, hcf, hmem⟩ := copies_of_lastCommand hq hsame
    have hl₁ : p₁ ++ f :: p₂ ++ e :: l₂ = p₁ ++ f :: (p₂ ++ e :: l₂) := by simp
    obtain ⟨-, -, -, -, -, hrf⟩ := (hserved p₁ f (p₂ ++ e :: l₂) hl₁ hcf).ran (hl₁ ▸ htr) hcf
    exact hs.notMem_copies he hrf hmem
  · intro ho
    obtain ⟨l, s, rfl, htr⟩ := ho.exists_trace (h := h) (c := c) w
    refine ⟨l, s, rfl, htr, ?_⟩
    rintro pre e post rfl hc
    obtain ⟨hm, -, hpacket, hcommand⟩ := ho (pre.map Prod.fst) e.1 (post.map Prod.fst) (by simp) hc
    obtain ⟨s₁, s₂, h1, h2, -⟩ := htr.split rfl
    have hl : ¬IsLast s₁ e.1.2 := fun hl => by
      obtain ⟨q, hq, hsame⟩ := ((remembers h1).isLast_iff hm).mp hl
      exact hpacket q hq hsame
    rcases command_effect hc h2 with ⟨-, hdup⟩ | ⟨-, -, -, hr, ha⟩
    · exact absurd (hdup hm) hl
    · refine ⟨_, ?_, ha⟩
      rw [transaction, copies_eq_nil hcommand, ho.copies_eq_nil hc]
      simpa using hr

/-- A command that is sent again at once is not answered again. -/
theorem not_alwaysServed_repeat {a : Arrival κ} (hc : IsCommand a.2) : ¬AlwaysServed h c w [a, a] := by
  rintro ⟨l, s, hl, htr, hserved⟩
  obtain ⟨e, l', rfl, rfl, hl'⟩ := List.map_eq_cons_iff.mp hl
  obtain ⟨f, l'', rfl, hf, hnil⟩ := List.map_eq_cons_iff.mp hl'
  obtain rfl := List.map_eq_nil_iff.mp hnil
  obtain ⟨s₁, h1, hlast, hm, -, -⟩ := (hserved [e] f [] rfl (hf ▸ hc)).ran htr (hf ▸ hc)
  refine hlast (((remembers h1).isLast_iff hm).mpr ⟨e.1, ?_, ?_⟩)
  · simp [lastPacket, hc.1]
  · rw [hf]
    exact ⟨rfl, rfl⟩

end Run

/-- A client sends a command twice: the copy gets no answer. -/
theorem repeat_unanswered : ¬AlwaysServed quiet factory ()
    [(0, packHdr NET_CMD_ID_MANU_CMD 2 (Vector.replicate 504 0)),
      (0, packHdr NET_CMD_ID_MANU_CMD 2 (Vector.replicate 504 0))] :=
  not_alwaysServed_repeat ⟨isPacket_packHdr _ _ _, by rw [opCode_packHdr]; decide⟩

end Infosvr
end Router
