/-
# Commands for another device

A command carries the address of the device it is for. `processPacket` means to compare it with its own, but calls
`memcpy`: the address in the packet is overwritten, and no command is refused. A command for another device then does
what one for this device does. It does nothing, to what is seen of the daemon at any time, exactly if the buffer holds
its `Info` already, and either its `OpCode` too or the transaction of no command that runs, and it runs nothing itself
(`addressed_iff`). What such a command still changes in the buffer, `OpCode`, the address and the first two bytes, is
written anew before anything is sent: two daemons that differ there cannot be told apart (`Alike`).
-/
import RouterFirmware.Infosvr.Packet

namespace Router
namespace Infosvr

open CMem CText

variable {W : Type*} {h : Host W} {c : Sysparam} {s t : Daemon W} {d : Bytes}

/-! ### What is claimed -/

section Claim

variable (h : Host W) (c : Sysparam)

/-- A command with the address of another device. -/
def Foreign (d : Bytes) : Prop := IsCommand d ∧ macAddress (received d) ≠ c.mac.toList

/-- What is seen of the datagrams `ds`, and the system they leave. -/
def behaviour (s : Daemon W) (ds : List Bytes) : Option (W × List (List Event)) :=
  (serve h c s ds).map fun r => (r.1.world, r.2)

/-- The datagram does nothing, and the daemon goes on as if it had never arrived. -/
def NoEffect (s : Daemon W) (d : Bytes) : Prop :=
  ∃ s', processReq h c s d = some (s', []) ∧ s'.world = s.world ∧
    ∀ ds, (∀ e ∈ ds, e.length = INFO_PDU_LENGTH) → behaviour h c s' ds = behaviour h c s ds

/-- No command for another device among the datagrams `ds` has an effect. -/
def Addressed (w : W) (ds : List Bytes) : Prop :=
  ∀ pre d post, ds = pre ++ d :: post → Foreign c d →
    ∀ s es, serve h c (boot w) pre = some (s, es) → NoEffect h c s d

end Claim

/-- The buffer holds the `Info` of the command, and its `OpCode` too unless neither is one that runs. -/
def Harmless (s : Daemon W) (d : Bytes) : Prop :=
  info s.res = info (received d) ∧ (opCode s.res = opCode (received d) ∨
    opCode s.res ≠ NET_CMD_ID_MANU_CMD ∧ opCode (received d) ≠ NET_CMD_ID_MANU_CMD)

/-! ### Daemons that cannot be told apart -/

/-- Two daemons that differ in the header of the buffer only, but not in `Info`, nor in whether a command that runs
would be a duplicate. -/
structure Alike (s t : Daemon W) : Prop where
  world_eq : s.world = t.world
  info_eq : info s.res = info t.res
  body_eq : ∀ i, 14 ≤ i → s.res i = t.res i
  opCode_eq : opCode s.res = opCode t.res ∨
    opCode s.res ≠ NET_CMD_ID_MANU_CMD ∧ opCode t.res ≠ NET_CMD_ID_MANU_CMD

theorem Alike.refl (s : Daemon W) : Alike s s := ⟨rfl, rfl, fun _ _ => rfl, .inl rfl⟩

theorem Alike.isLast_iff (hst : Alike s t) (hm : opCode (received d) = NET_CMD_ID_MANU_CMD) :
    IsLast s d ↔ IsLast t d := by
  have hop : opCode s.res = opCode (received d) ↔ opCode t.res = opCode (received d) := by
    rw [hm]
    rcases hst.opCode_eq with ho | ⟨hs, ht⟩
    · rw [ho]
    · exact ⟨fun h' => absurd h' hs, fun h' => absurd h' ht⟩
  rw [IsLast, IsLast, hop, hst.info_eq]

/-- The answer to GETINFO is a function of the first eight bytes and of those behind `PrinterInfo`. -/
theorem fillInfo_congr {m m' : Mem} (hm : ∀ i, i < 8 ∨ 136 ≤ i → m i = m' i) (w : W) :
    fillInfo h c m w = fillInfo h c m' w := by
  have hzero : write (write m 8 (List.replicate 4 0)) 8 (List.replicate 128 0) =
      write (write m' 8 (List.replicate 4 0)) 8 (List.replicate 128 0) := by
    funext i
    have h4 := write_congr (l := List.replicate 4 (0 : UInt8)) (p := 8) (s := { i | i < 8 ∨ 136 ≤ i }) hm
    refine write_congr (s := { i | i < 8 ∨ 136 ≤ i }) (fun j hj => h4 j (.inl hj)) i ?_
    simp only [Set.mem_ofPred_eq, List.length_replicate]
    omega
  unfold fillInfo
  dsimp only
  rw [hzero]

theorem Alike.resHdr_eq (hst : Alike s t) (pdubuf : Mem) :
    ∀ i, i < 8 ∨ 14 ≤ i → resHdr s.res pdubuf i = resHdr t.res pdubuf i := by
  intro i hi
  have hres : ∀ j, 4 ≤ j ∧ j < 8 ∨ 14 ≤ j → s.res j = t.res j := by
    rintro j (⟨h4, h8⟩ | hj)
    · obtain ⟨k, rfl⟩ := Nat.exists_eq_add_of_le h4
      rw [byte_of_le32 hst.info_eq (by omega), ← byte_of_le32 (Eq.refl (info t.res)) (by omega)]
    · exact hst.body_eq j hj
  have h0 := write_congr (l := [NET_SERVICE_ID_IBOX_INFO]) (p := 0) (s := { j | 4 ≤ j ∧ j < 8 ∨ 14 ≤ j }) hres
  have h1 := write_congr (l := [NET_PACKET_TYPE_RES]) (p := 1)
    (s := { j | j < 1 ∨ 4 ≤ j ∧ j < 8 ∨ 14 ≤ j }) fun j hj => h0 j (by simp at hj ⊢; omega)
  have h2 := write_congr (l := bytes16 (opCode pdubuf)) (p := 2)
    (s := { j | j < 2 ∨ 4 ≤ j ∧ j < 8 ∨ 14 ≤ j }) fun j hj => h1 j (by simp at hj ⊢; omega)
  exact h2 i (by simp; omega)

theorem Alike.resHdrEx_eq (hst : Alike s t) (pdubuf : Mem) : resHdrEx c s.res pdubuf = resHdrEx c t.res pdubuf := by
  funext i
  unfold resHdrEx
  refine write_congr (s := { j | j < 8 ∨ 14 ≤ j }) (fun j hj => ?_) i (by simp [macAddress]; omega)
  exact write_congr (s := { j | j < 8 ∨ 14 ≤ j }) (hst.resHdr_eq pdubuf) j (.inl hj)

/-- Two daemons that cannot be told apart give the same answers, and stay so. -/
theorem Alike.step (s t : Daemon W) (d : Bytes) (hst : Alike s t) :
    Option.Rel (fun a b => Alike a.1 b.1 ∧ a.2 = b.2) (processReq h c s d) (processReq h c t d) := by
  by_cases hp : IsPacket d
  swap
  · rw [processReq_ignored hp, processReq_ignored hp]
    exact .some ⟨hst, rfl⟩
  by_cases hg : opCode (received d) = NET_CMD_ID_GETINFO
  · have hfill : fillInfo h c (resHdr s.res (received d)) s.world = fillInfo h c (resHdr t.res (received d)) s.world :=
      fillInfo_congr (fun i hi => hst.resHdr_eq _ i (by omega)) s.world
    rw [processReq_getinfo hp hg, processReq_getinfo hp hg, hfill, hst.world_eq]
    exact .some ⟨.refl _, rfl⟩
  have hc : IsCommand d := ⟨hp, hg⟩
  by_cases hm : opCode (received d) = NET_CMD_ID_MANU_CMD
  swap
  · obtain ⟨s', hs, hw, hi, ho, hb⟩ := processReq_unknown (h := h) (c := c) (s := s) hc hm
    obtain ⟨t', ht, hw', hi', ho', hb'⟩ := processReq_unknown (h := h) (c := c) (s := t) hc hm
    rw [hs, ht]
    refine .some ⟨⟨?_, hi.trans hi'.symm, fun i h14 => ?_, .inl (ho.trans ho'.symm)⟩, rfl⟩
    · rw [hw, hw', hst.world_eq]
    · rw [hb i h14, hb' i h14, hst.body_eq i h14]
  by_cases hl : IsLast s d
  · rw [processReq_duplicate hc hl, processReq_duplicate hc ((hst.isLast_iff hm).mp hl)]
    exact .some ⟨hst, rfl⟩
  · have hw : worldAfter h s d = worldAfter h t d := by rw [worldAfter, worldAfter, hst.world_eq]
    have hr : responseTo h c s d = responseTo h c t d := by
      rw [responseTo, responseTo, hst.resHdrEx_eq, resultOf, resultOf, hw]
    rw [processReq_manu hc hl hm, processReq_manu hc (fun hl' => hl ((hst.isLast_iff hm).mpr hl')) hm, hr, resultOf,
      resultOf, hw]
    split_ifs
    · exact .some ⟨.refl _, rfl⟩
    · exact .none

theorem Alike.behaviour_eq (hst : Alike s t) (ds : List Bytes) : behaviour h c s ds = behaviour h c t ds := by
  have hrel := Run.execOut_sim (f := processReq h c) Alike.step ds hst
  unfold behaviour serve
  generalize Run.execOut (processReq h c) ds s = a, Run.execOut (processReq h c) ds t = b at hrel ⊢
  cases hrel with
  | none => rfl
  | some hab => simp [hab.1.world_eq, hab.2]

/-! ### The harmless commands -/

/-- A line that is empty fits. -/
theorem fits_of_empty (h0 : received d 48 = 0) : Fits d := by
  have hnul : ∀ k, write (received d) (48 + k) [0] 48 = 0 := by
    intro k
    unfold write
    split_ifs with hk
    · obtain rfl : k = 0 := by simp at hk; omega
      rfl
    · exact h0
  have htext : (syscmdText (received d)).bytes = [] := by
    simp [syscmdText, readStr, scan, INFO_PDU_LENGTH, hnul]
  unfold Fits cmdstr
  rw [htext]
  decide

theorem noEffect_of_harmless (hc : IsCommand d) (hh : Harmless s d) : NoEffect h c s d := by
  obtain ⟨hi, ho⟩ := hh
  by_cases hl : IsLast s d
  · exact ⟨s, processReq_duplicate hc hl, rfl, fun _ _ => rfl⟩
  · have hm := ho.resolve_left fun ho => hl ⟨ho, hi⟩
    obtain ⟨s', hs, hw, hi', ho', hb⟩ := processReq_unknown (h := h) (c := c) (s := s) hc hm.2
    refine ⟨s', hs, hw, fun ds _ => Alike.behaviour_eq ⟨hw, hi'.trans hi.symm, hb, .inr ⟨?_, hm.1⟩⟩ ds⟩
    rw [ho']
    exact hm.2

/-- The first packet of an answer. -/
theorem sendInfo_inj {m m' : Mem} (he : sendInfo c m = sendInfo c m') {i : ℕ} (hi : i < INFO_PDU_LENGTH) :
    m i = m' i := by
  obtain ⟨n, hn⟩ := Nat.exists_eq_succ_of_ne_zero c.intfCount_pos.ne'
  rw [sendInfo, sendInfo, hn, List.replicate_succ, List.replicate_succ, List.cons.injEq, Event.sent.injEq] at he
  have h0 := congrArg (fun l : Bytes => l[i]?) he.1
  simpa [load, hi] using h0

theorem behaviour_singleton {s' : Daemon W} {es : List Event} (hs : processReq h c s d = some (s', es)) :
    behaviour h c s [d] = some (s'.world, [es]) := by
  simp [behaviour, serve, Run.execOut, hs]

/-- A GETINFO shows the `Info` of the buffer. -/
theorem info_of_behaviour (hb : ∀ ds, (∀ e ∈ ds, e.length = INFO_PDU_LENGTH) → behaviour h c t ds = behaviour h c s ds) :
    info t.res = info s.res := by
  have hp := isPacket_packHdr NET_CMD_ID_GETINFO 0 (Vector.replicate 504 0)
  have hg := opCode_packHdr NET_CMD_ID_GETINFO 0 (Vector.replicate 504 0)
  have h1 := hb [packHdr NET_CMD_ID_GETINFO 0 (Vector.replicate 504 0)] (by simp)
  rw [behaviour_singleton (processReq_getinfo hp hg), behaviour_singleton (processReq_getinfo hp hg)] at h1
  simp only [Option.some.injEq, Prod.mk.injEq, List.cons.injEq, and_true] at h1
  have h2 : info (fillInfo h c (resHdr t.res _) t.world).1 = info (fillInfo h c (resHdr s.res _) s.world).1 :=
    le32_congr fun i _ hi => sendInfo_inj h1.2 (by unfold INFO_PDU_LENGTH; omega)
  rwa [info_fillInfo, info_fillInfo, info_resHdr, info_resHdr] at h2

/-- A command that runs shows whether the buffer stands for it. -/
theorem opCode_of_behaviour
    (hb : ∀ ds, (∀ e ∈ ds, e.length = INFO_PDU_LENGTH) → behaviour h c t ds = behaviour h c s ds)
    (hs : opCode s.res = NET_CMD_ID_MANU_CMD) : opCode t.res = NET_CMD_ID_MANU_CMD := by
  by_contra ht
  have hop := opCode_packHdr NET_CMD_ID_MANU_CMD (info s.res) (Vector.replicate 504 0)
  have hc : IsCommand (packHdr NET_CMD_ID_MANU_CMD (info s.res) (Vector.replicate 504 0)) :=
    ⟨isPacket_packHdr _ _ _, by rw [hop]; decide⟩
  have hls : IsLast s (packHdr NET_CMD_ID_MANU_CMD (info s.res) (Vector.replicate 504 0)) :=
    ⟨hs.trans hop.symm, (info_packHdr _ _ _).symm⟩
  have hlt : ¬IsLast t (packHdr NET_CMD_ID_MANU_CMD (info s.res) (Vector.replicate 504 0)) :=
    fun hl => ht (hl.1.trans hop)
  have hf : Fits (packHdr NET_CMD_ID_MANU_CMD (info s.res) (Vector.replicate 504 0)) :=
    fits_of_empty ((rest_packHdr _ _ _ (by omega : 40 < 504)).trans (by simp))
  have h1 := hb [packHdr NET_CMD_ID_MANU_CMD (info s.res) (Vector.replicate 504 0)] (by simp)
  have hrun := processReq_manu (h := h) (c := c) hc hlt hop
  rw [if_pos hf] at hrun
  rw [behaviour_singleton hrun, behaviour_singleton (processReq_duplicate hc hls)] at h1
  simp at h1

theorem harmless_of_noEffect (hc : IsCommand d) (hn : NoEffect h c s d) : Harmless s d := by
  obtain ⟨s', hs, -, hb⟩ := hn
  by_cases hl : IsLast s d
  · exact ⟨hl.2, .inl hl.1⟩
  by_cases hm : opCode (received d) = NET_CMD_ID_MANU_CMD
  · rw [processReq_manu hc hl hm] at hs
    split_ifs at hs
    simp at hs
  · obtain ⟨s₁, hs₁, -, hi, ho, -⟩ := processReq_unknown (h := h) (c := c) (s := s) hc hm
    rw [hs] at hs₁
    obtain rfl : s' = s₁ := (Prod.mk.inj (Option.some.inj hs₁)).1
    refine ⟨(info_of_behaviour hb).symm.trans hi, .inr ⟨fun hop => hm ?_, hm⟩⟩
    exact ho.symm.trans (opCode_of_behaviour hb hop)

/-- The commands for other devices have no effect exactly if all of them are harmless. -/
theorem addressed_iff (h : Host W) (c : Sysparam) (w : W) (ds : List Bytes) :
    Addressed h c w ds ↔ ∀ pre d post, ds = pre ++ d :: post → Foreign c d →
      ∀ s es, serve h c (boot w) pre = some (s, es) → Harmless s d :=
  ⟨fun ha pre d post hds hf s es hs => harmless_of_noEffect hf.1 (ha pre d post hds hf s es hs),
    fun hh pre d post hds hf s es hs => noEffect_of_harmless hf.1 (hh pre d post hds hf s es hs)⟩

/-- A command for the device with the address 0 runs on this one. -/
theorem foreign_runs : ¬Addressed quiet factory () [packHdr NET_CMD_ID_MANU_CMD 2 (Vector.replicate 504 0)] := by
  intro ha
  have hop := opCode_packHdr NET_CMD_ID_MANU_CMD 2 (Vector.replicate 504 0)
  have hc : IsCommand (packHdr NET_CMD_ID_MANU_CMD 2 (Vector.replicate 504 0)) :=
    ⟨isPacket_packHdr _ _ _, by rw [hop]; decide⟩
  have hmac : macAddress (received (packHdr NET_CMD_ID_MANU_CMD 2 (Vector.replicate 504 0))) ≠ factory.mac.toList := by
    intro he
    have h1 := congrArg (fun l : Bytes => l[1]?) he
    have h9 := rest_packHdr NET_CMD_ID_MANU_CMD 2 (Vector.replicate 504 0) (by omega : 1 < 504)
    simp [macAddress, load, h9, factory] at h1
  have hh := harmless_of_noEffect hc (ha [] _ [] rfl ⟨hc, hmac⟩ (boot ()) [] rfl)
  exact absurd hh.1 (by rw [info_packHdr]; decide)

end Infosvr
end Router
