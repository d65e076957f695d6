/-
# How long a subscription is alive

Two subscriptions that are alive should have different SIDs, and a subscription should end only by an UNSUBSCRIBE for
its SID, by its expiry, or by an error reply to one of its own notifications (`RemovedBy`).

Neither holds of every run. A SID has the low byte of `uuid_count` only, so the 257th subscription may have the SID of
the first (`sid_repeats`). And a connection that waits for a reply knows its subscription by the address, which may be
that of another one when the reply comes (`reply_removes_another`). `lifetime_of_run` is for the runs without these
two (`Lasting`). What `malloc` promises, an address that is not in use, is `Fresh`.
-/
import RouterFirmware.Upnp.Events

namespace Router
namespace Upnp

open CMem CText

variable {g g' : Gena} {psvc : Service} {sr : Subscription} {e : Event}

/-! ### What is asked of a run -/

/-- What a subscription keeps while it is alive. -/
structure Key where
  addr : ℕ
  sid : Bytes
  uuid : Uuid

def Subscription.key (sr : Subscription) : Key := ⟨sr.addr, sr.sid, sr.uuid⟩

def Service.keys (psvc : Service) : List Key := psvc.subscriptions.map Subscription.key

/-- Two subscriptions that cannot be mistaken for each other. -/
def Key.Apart (k l : Key) : Prop := k.addr ≠ l.addr ∧ k.sid ≠ l.sid ∧ k.uuid.count ≠ l.uuid.count

theorem Key.Apart.symm {k l : Key} (h : k.Apart l) : l.Apart k := ⟨h.1.symm, h.2.1.symm, h.2.2.symm⟩

/-- So are any two of all services. -/
structure Distinct (g : Gena) : Prop where
  same : ∀ i, (g.services i).keys.Pairwise Key.Apart
  other : ∀ i j, i ≠ j → ∀ k ∈ (g.services i).keys, ∀ l ∈ (g.services j).keys, k.Apart l

/-- A reply that does not end the subscription. -/
def Accepted (buf : Bytes) : Prop := imatchPrefix (strsep (bytes "\r\n") (cstr buf).bytes).1 "HTTP/1.1 200 OK" = true

/-- When an event may end a subscription of the service `i`. -/
def RemovedBy (g : Gena) (i : ℕ) (sr : Subscription) : Event → Prop
  | .unsubscribe svc sid _ _ => svc = i ∧ sid = some sr.sid
  | .reap now => sr.expires ≠ 0 ∧ sr.expires < now
  | .reply svc fd buf =>
    svc = i ∧ ¬Accepted buf ∧ ∃ gc ∈ (g.services i).connections, gc.fd = fd ∧ gc.count = sr.uuid.count
  | _ => False

/-- `malloc` returns an address that is not in use. -/
def Fresh (g : Gena) : Event → Prop
  | .subscribe _ addr _ _ _ _ _ _ => ∀ a ∈ addr, ∀ i, ∀ sr ∈ (g.services i).subscriptions, sr.addr ≠ a
  | _ => True

/-- A new subscription is not a multiple of 256 away from one that is alive, with the same other bytes in the SID.
And an error reply finds no other subscription at the address of the one that was notified. -/
def Lasting (g : Gena) : Event → Prop
  | .subscribe _ addr lanHwaddr rest cb sid _ _ =>
    addr.isSome → cb → sid = none → ∀ i, ∀ sr ∈ (g.services i).subscriptions,
      lanHwaddr = sr.uuid.lanHwaddr → rest = sr.uuid.rest → g.uuidCount % 256 ≠ sr.uuid.count % 256
  | .reply svc fd buf =>
    ∀ gc ∈ (g.services svc).connections.find? (·.fd = fd), ¬Accepted buf →
      ∀ sr ∈ (g.services svc).subscriptions, sr.addr = gc.sub → sr.uuid.count = gc.count
  | _ => True

def Step (g : Gena) (e : Event) (g' : Gena) : Prop := Fresh g e ∧ Lasting g e ∧ e.run g = g'

/-! ### A SID -/

theorem hexDigit_inj : ∀ m < 16, ∀ n < 16, hexDigit m = hexDigit n → m = n := by decide

theorem hexDigit_ne_dash : ∀ n < 16, hexDigit n ≠ 45 := by decide

theorem hex2_inj {b c : UInt8} (h : hex2 b = hex2 c) : b = c := by
  have hb := b.toNat_lt
  have hc := c.toNat_lt
  obtain ⟨hhigh, hlow⟩ := List.cons.inj h
  have h1 := hexDigit_inj _ (by omega) _ (by omega) hhigh
  have h2 := hexDigit_inj _ (by omega) _ (by omega) (List.cons.inj hlow).1
  apply UInt8.toNat_inj.mp
  omega

theorem flatMap_hex2_inj : ∀ {l m : List UInt8}, l.flatMap hex2 = m.flatMap hex2 → l = m
  | [], [], _ => rfl
  | [], c :: m, h => by simp [hex2] at h
  | b :: l, [], h => by simp [hex2] at h
  | b :: l, c :: m, h => by
    rw [List.flatMap_cons, List.flatMap_cons] at h
    obtain ⟨hbyte, hrest⟩ := List.append_inj h rfl
    rw [hex2_inj hbyte, flatMap_hex2_inj hrest]

theorem filter_flatMap_hex2 (l : List UInt8) : (l.flatMap hex2).filter (· ≠ 45) = l.flatMap hex2 := by
  apply List.filter_eq_self.mpr
  intro c hc
  obtain ⟨b, _, hc⟩ := List.mem_flatMap.mp hc
  have hb := b.toNat_lt
  have hdigit : ∀ n < 16, decide (hexDigit n ≠ 45) = true := fun n hn => decide_eq_true (hexDigit_ne_dash n hn)
  simp only [hex2, List.mem_cons, List.not_mem_nil, or_false] at hc
  rcases hc with rfl | rfl
  · exact hdigit _ (by omega)
  · exact hdigit _ (by omega)

/-- Without the dashes, a SID is its bytes. -/
theorem Uuid.filter_str (d : Uuid) : d.str.filter (· ≠ 45) = d.bytes.flatMap hex2 := by
  have hcut : ∀ n k, d.bytes.drop n = (d.bytes.drop n).take k ++ d.bytes.drop (n + k) := by
    intro n k
    rw [← List.drop_drop, List.take_append_drop]
  have hbytes : d.bytes = d.bytes.take 4 ++ ((d.bytes.drop 4).take 2 ++ ((d.bytes.drop 6).take 2 ++
      ((d.bytes.drop 8).take 2 ++ d.bytes.drop 10))) := by
    rw [← hcut 8 2, ← hcut 6 2, ← hcut 4 2, List.take_append_drop]
  have hdash : ([45] : Bytes).filter (· ≠ 45) = [] := by decide
  conv_rhs => rw [hbytes]
  simp only [Uuid.str, List.filter_append, filter_flatMap_hex2, hdash, List.flatMap_append, List.nil_append,
    List.append_assoc]

theorem Uuid.bytes_of_sid {d d' : Uuid} (h : d.sid = d'.sid) : d.bytes = d'.bytes := by
  have hstr : d.str = d'.str := List.append_cancel_left h
  apply flatMap_hex2_inj
  rw [← d.filter_str, ← d'.filter_str, hstr]

/-- Where two SIDs are equal. -/
theorem Uuid.sid_inj {d d' : Uuid} (h : d.sid = d'.sid) :
    d.lanHwaddr = d'.lanHwaddr ∧ d.count % 256 = d'.count % 256 ∧ d.rest = d'.rest := by
  obtain ⟨hfront, hrest⟩ := List.append_inj' (Uuid.bytes_of_sid h) (by simp)
  obtain ⟨hmac, hcount⟩ := List.append_inj' hfront rfl
  refine ⟨List.ofFn_injective hmac, ?_, List.ofFn_injective hrest⟩
  have hbyte := congrArg UInt8.toNat (List.cons.inj hcount).1
  simpa only [UInt8.toNat_ofNat'] using hbyte

/-! ### A service -/

/-- A service keeps its subscriptions, but for some with `P`. -/
structure Loses (P : Subscription → Prop) (psvc psvc' : Service) : Prop where
  sublist : psvc'.keys.Sublist psvc.keys
  kept : ∀ sr ∈ psvc.subscriptions, sr.key ∈ psvc'.keys ∨ P sr

section Loses

variable {P Q : Subscription → Prop} {psvc' : Service}

theorem Loses.of_keys (h : psvc'.keys = psvc.keys) : Loses P psvc psvc' := by
  refine ⟨?_, ?_⟩
  · rw [h]
  · intro sr hsr
    rw [h]
    exact .inl (List.mem_map_of_mem hsr)

theorem Loses.imp (h : Loses P psvc psvc') (himp : ∀ sr ∈ psvc.subscriptions, P sr → Q sr) : Loses Q psvc psvc' :=
  ⟨h.sublist, fun sr hsr => (h.kept sr hsr).imp_right (himp sr hsr)⟩

theorem loses_deleteSubscription (addr : ℕ) : Loses (·.addr = addr) psvc (deleteSubscription addr psvc) := by
  refine ⟨List.eraseP_sublist.map _, ?_⟩
  intro sr hsr
  by_cases haddr : sr.addr = addr
  · exact .inr haddr
  · have hmem : sr ∈ psvc.subscriptions.eraseP (·.addr = addr) :=
      (List.mem_eraseP_of_neg (by simpa using haddr)).mpr hsr
    exact .inl (List.mem_map_of_mem hmem)

theorem loses_reapServiceSubscriptions (now : ℤ) :
    Loses (fun sr => sr.expires ≠ 0 ∧ sr.expires < now) psvc (reapServiceSubscriptions now psvc) := by
  refine ⟨List.filter_sublist.map _, ?_⟩
  intro sr hsr
  by_cases hexp : sr.expires ≠ 0 ∧ sr.expires < now
  · exact .inr hexp
  · have hmem : sr ∈ psvc.subscriptions.filter fun sr => !(sr.expires ≠ 0 ∧ sr.expires < now) :=
      List.mem_filter.mpr ⟨hsr, by rwa [Bool.not_eq_true', decide_eq_false_iff_not]⟩
    exact .inl (List.mem_map_of_mem hmem)

/-- The subscription that `find_by_sid` finds. -/
theorem findBySid_spec {sid : Bytes} {now : ℤ} (h : findBySid psvc sid now = some sr) :
    sr ∈ psvc.subscriptions ∧ sr.sid = sid := by
  unfold findBySid at h
  cases hfind : psvc.subscriptions.find? (·.sid = sid) with
  | none =>
    rw [hfind] at h
    cases h
  | some psub =>
    rw [hfind] at h
    dsimp only at h
    split_ifs at h
    cases h
    exact ⟨List.mem_of_find?_eq_some hfind, by simpa using List.find?_some hfind⟩

theorem loses_processUnsubscribe (sid : Option Bytes) (badheaders : Bool) (now : ℤ)
    (haddr : psvc.keys.Pairwise Key.Apart) :
    Loses (fun sr => sid = some sr.sid) psvc (processUnsubscribe sid badheaders now psvc) := by
  unfold processUnsubscribe
  cases hfind : sid.bind fun sid => findBySid psvc sid now with
  | none => exact .of_keys rfl
  | some psub =>
    dsimp only
    split_ifs
    · exact .of_keys rfl
    · obtain ⟨sid, rfl, hfind⟩ := Option.bind_eq_some_iff.mp hfind
      obtain ⟨hmem, hsid⟩ := findBySid_spec hfind
      apply (loses_deleteSubscription psub.addr).imp
      intro sr hsr hsame
      -- no two have the same address, so it is the one that was found
      by_cases heq : sr = psub
      · rw [heq, hsid]
      · have hsymm : Std.Symm fun a b : Subscription => a.key.Apart b.key := ⟨fun _ _ h => h.symm⟩
        exact absurd hsame ((List.pairwise_map.mp haddr).forall hsr hmem heq).1

theorem keys_genaRenewSubscription (cb : Bool) (sid timeout : Option Bytes) (now : ℤ) :
    (genaRenewSubscription cb sid timeout now psvc).keys = psvc.keys := by
  unfold genaRenewSubscription
  cases sid.bind fun sid => findBySid psvc sid now with
  | none => rfl
  | some psub =>
    dsimp only
    split_ifs
    · rfl
    · apply (List.map_map ..).trans
      apply List.map_congr_left
      intro sr _
      dsimp only [Function.comp_apply]
      split_ifs <;> rfl

theorem key_genaNotify (net : Network) (body : List (ℕ × Bytes)) (sr : Subscription) :
    (genaNotify net body sr).1.key = sr.key := by
  unfold genaNotify
  cases net sr.addr with
  | none => rfl
  | some connection =>
    dsimp only
    split_ifs <;> rfl

theorem keys_notifyWhere (p : Subscription → Bool) (net : Network) (body : List (ℕ × Bytes)) :
    (notifyWhere p net body psvc).keys = psvc.keys := by
  apply (List.map_map ..).trans
  apply List.map_congr_left
  intro sr _
  dsimp only [Function.comp_apply]
  split_ifs
  · exact key_genaNotify net body sr
  · rfl

theorem keys_svcSendInitialEvents (read : ℕ → Bytes) (net : Network) :
    (svcSendInitialEvents read net psvc).keys = psvc.keys := by
  unfold svcSendInitialEvents
  dsimp only
  split_ifs
  · exact keys_notifyWhere ..
  · rfl
  · rfl

theorem keys_updateAllSubscriptions (read : ℕ → Bytes) (net : Network) :
    (updateAllSubscriptions read net psvc).keys = psvc.keys := by
  unfold updateAllSubscriptions
  dsimp only
  split_ifs
  · exact keys_notifyWhere ..
  · rfl

theorem loses_processReceive (fd : ℕ) (buf : Bytes) :
    Loses (fun sr => ¬Accepted buf ∧ ∃ gc ∈ psvc.connections.find? (·.fd = fd), sr.addr = gc.sub) psvc
      (processReceive fd buf psvc) := by
  unfold processReceive
  cases hfind : psvc.connections.find? (·.fd = fd) with
  | none => exact .of_keys rfl
  | some gc =>
    dsimp only [genaConnectionHandler]
    split_ifs with hreply
    · exact .of_keys rfl
    · have hdel : Loses (·.addr = gc.sub) psvc (removeNetConnection gc.fd (deleteSubscription gc.sub psvc)) :=
        ⟨(loses_deleteSubscription gc.sub).sublist, (loses_deleteSubscription gc.sub).kept⟩
      exact hdel.imp fun sr _ haddr => ⟨hreply, gc, rfl, haddr⟩

end Loses

/-! ### A step -/

/-- What holds of every subscription of a run. -/
structure Inv (g : Gena) : Prop extends Distinct g where
  sid : ∀ i, ∀ k ∈ (g.services i).keys, k.sid = k.uuid.sid
  count : ∀ i, ∀ k ∈ (g.services i).keys, k.uuid.count < g.uuidCount

/-- A new subscription, in front of those of its service. -/
def Gena.add (g : Gena) (svc : ℕ) (sr : Subscription) : Gena :=
  { g.modify svc fun psvc => { psvc with subscriptions := sr :: psvc.subscriptions } with
    uuidCount := g.uuidCount + 1 }

/-- A SUBSCRIBE makes a subscription or changes nothing. -/
theorem subscribe_cases (svc : ℕ) (addr : Option ℕ) (lanHwaddr : Fin 12 → UInt8) (rest : Fin 3 → UInt8) (cb : Bool)
    (sid timeout : Option Bytes) (now : ℤ) (g : Gena) :
    genaNewSubscription svc addr lanHwaddr rest cb sid timeout now g = g ∨
      ∃ a sr, addr = some a ∧ cb = true ∧ sid = none ∧ sr.addr = a ∧ sr.sid = sr.uuid.sid ∧
        sr.uuid = ⟨lanHwaddr, g.uuidCount, rest⟩ ∧
        genaNewSubscription svc addr lanHwaddr rest cb sid timeout now g = g.add svc sr := by
  unfold genaNewSubscription
  split_ifs with href
  · exact .inl rfl
  · cases addr with
    | none => exact .inl rfl
    | some a =>
      obtain ⟨hsid, hcb⟩ : sid = none ∧ cb = true := by simpa using href
      exact .inr ⟨a, _, rfl, hcb, hsid, rfl, rfl, rfl, rfl⟩

/-- The new subscription cannot be mistaken for another. -/
theorem Inv.apart_new (h : Inv g) {k : Key} (hsid : k.sid = k.uuid.sid) (hcount : k.uuid.count = g.uuidCount)
    (haddr : ∀ i, ∀ l ∈ (g.services i).keys, l.addr ≠ k.addr)
    (huuid : ∀ i, ∀ l ∈ (g.services i).keys, k.uuid.lanHwaddr = l.uuid.lanHwaddr → k.uuid.rest = l.uuid.rest →
      k.uuid.count % 256 ≠ l.uuid.count % 256) :
    ∀ i, ∀ l ∈ (g.services i).keys, k.Apart l := by
  intro i l hl
  refine ⟨(haddr i l hl).symm, ?_, ?_⟩
  · intro hsame
    rw [hsid, h.sid i l hl] at hsame
    obtain ⟨hmac, hbyte, hrest⟩ := Uuid.sid_inj hsame
    exact huuid i l hl hmac hrest hbyte
  · have hlt := h.count i l hl
    omega

theorem Inv.add (h : Inv g) {svc : ℕ} (hsid : sr.sid = sr.uuid.sid) (hcount : sr.uuid.count = g.uuidCount)
    (hnew : ∀ i, ∀ l ∈ (g.services i).keys, sr.key.Apart l) : Inv (g.add svc sr) := by
  have hself : ((g.add svc sr).services svc).keys = sr.key :: (g.services svc).keys := by
    simp only [Gena.add, Gena.modify, Function.update_self, Service.keys, List.map_cons]
  have hne : ∀ i, i ≠ svc → ((g.add svc sr).services i).keys = (g.services i).keys := by
    intro i hi
    simp only [Gena.add, Gena.modify, Function.update_of_ne hi]
  have hmem : ∀ i, ∀ k ∈ ((g.add svc sr).services i).keys, i = svc ∧ k = sr.key ∨ k ∈ (g.services i).keys := by
    intro i k hk
    by_cases hi : i = svc
    · subst hi
      rw [hself] at hk
      rcases List.mem_cons.mp hk with rfl | hk
      · exact .inl ⟨rfl, rfl⟩
      · exact .inr hk
    · rw [hne i hi] at hk
      exact .inr hk
  refine ⟨⟨?_, ?_⟩, ?_, ?_⟩
  · intro i
    by_cases hi : i = svc
    · subst hi
      rw [hself]
      exact .cons (hnew i) (h.same i)
    · rw [hne i hi]
      exact h.same i
  · intro i j hij k hk l hl
    rcases hmem i k hk with ⟨rfl, rfl⟩ | hold
    · rcases hmem j l hl with ⟨rfl, _⟩ | hother
      · exact absurd rfl hij
      · exact hnew j l hother
    · rcases hmem j l hl with ⟨rfl, rfl⟩ | hother
      · exact (hnew i k hold).symm
      · exact h.other i j hij k hold l hother
  · intro i k hk
    rcases hmem i k hk with ⟨_, rfl⟩ | hk
    · exact hsid
    · exact h.sid i k hk
  · intro i k hk
    rcases hmem i k hk with ⟨_, rfl⟩ | hk
    · exact hcount.trans_lt (Nat.lt_succ_self _)
    · exact (h.count i k hk).trans (Nat.lt_succ_self _)

/-- Subscriptions are lost. -/
theorem Inv.loses {P : ℕ → Subscription → Prop} (h : Inv g) (hcount : g'.uuidCount = g.uuidCount)
    (hlose : ∀ i, Loses (P i) (g.services i) (g'.services i)) : Inv g' := by
  have hsub : ∀ i, ∀ k ∈ (g'.services i).keys, k ∈ (g.services i).keys := fun i _ hk => (hlose i).sublist.subset hk
  refine ⟨⟨?_, ?_⟩, ?_, ?_⟩
  · exact fun i => (h.same i).sublist (hlose i).sublist
  · exact fun i j hij k hk l hl => h.other i j hij k (hsub i k hk) l (hsub j l hl)
  · exact fun i k hk => h.sid i k (hsub i k hk)
  · rw [hcount]
    exact fun i k hk => h.count i k (hsub i k hk)

theorem loses_modify {P : Subscription → Prop} {svc : ℕ} {f : Service → Service}
    (h : Loses P (g.services svc) (f (g.services svc))) (i : ℕ) :
    Loses (fun sr => svc = i ∧ P sr) (g.services i) ((g.modify svc f).services i) := by
  unfold Gena.modify
  dsimp only
  by_cases hi : i = svc
  · subst hi
    rw [Function.update_self]
    exact h.imp fun sr _ hsr => ⟨rfl, hsr⟩
  · rw [Function.update_of_ne hi]
    exact .of_keys rfl

/-- What an event that subscribes nobody takes away. -/
theorem loses_run (h : Inv g) (hlast : Lasting g e) (he : ∀ svc addr lanHwaddr rest cb sid timeout now,
    e ≠ .subscribe svc addr lanHwaddr rest cb sid timeout now) :
    (e.run g).uuidCount = g.uuidCount ∧ ∀ i, Loses (RemovedBy g i · e) (g.services i) ((e.run g).services i) := by
  have hkeys : ∀ {svc : ℕ} {f : Service → Service}, (f (g.services svc)).keys = (g.services svc).keys →
      ∀ i, Loses (RemovedBy g i · e) (g.services i) ((g.modify svc f).services i) := by
    intro svc f hf i
    apply (loses_modify (.of_keys (P := fun _ => False) hf) i).imp
    exact fun _ _ hfalse => hfalse.2.elim
  cases e with
  | subscribe svc addr lanHwaddr rest cb sid timeout now => exact (he svc addr lanHwaddr rest cb sid timeout now rfl).elim
  | renew svc cb sid timeout now => exact ⟨rfl, hkeys (keys_genaRenewSubscription ..)⟩
  | unsubscribe svc sid badheaders now =>
    exact ⟨rfl, loses_modify (loses_processUnsubscribe sid badheaders now (h.same svc))⟩
  | reap now => exact ⟨rfl, fun i => loses_reapServiceSubscriptions now⟩
  | markChanged svc k => exact ⟨rfl, hkeys rfl⟩
  | sendInitialEvents read net => exact ⟨rfl, fun i => .of_keys (keys_svcSendInitialEvents ..)⟩
  | updateAll svc read net => exact ⟨rfl, hkeys (keys_updateAllSubscriptions ..)⟩
  | reply svc fd buf =>
    refine ⟨rfl, fun i => (loses_modify (loses_processReceive fd buf) i).imp ?_⟩
    rintro sr hsr ⟨rfl, herr, gc, hgc, haddr⟩
    have hfind : (g.services svc).connections.find? (·.fd = fd) = some gc := hgc
    have hfd : gc.fd = fd := by simpa using List.find?_some hfind
    exact ⟨rfl, herr, gc, List.mem_of_find?_eq_some hfind, hfd, (hlast gc hgc herr sr hsr haddr).symm⟩
  | connectionReaper svc fd => exact ⟨rfl, hkeys rfl⟩

/-- **What a step keeps**, and which subscriptions it removes. -/
theorem Inv.step (h : Inv g) (hstep : Step g e g') :
    Inv g' ∧ ∀ i, ∀ sr ∈ (g.services i).subscriptions, sr.key ∈ (g'.services i).keys ∨ RemovedBy g i sr e := by
  obtain ⟨hfresh, hlast, rfl⟩ := hstep
  by_cases he : ∃ svc addr lanHwaddr rest cb sid timeout now,
      e = .subscribe svc addr lanHwaddr rest cb sid timeout now
  · obtain ⟨svc, addr, lanHwaddr, rest, cb, sid, timeout, now, rfl⟩ := he
    dsimp only [Event.run]
    obtain hsame | ⟨a, sr, rfl, rfl, rfl, haddr, hsid, huuid, hadd⟩ :=
      subscribe_cases svc addr lanHwaddr rest cb sid timeout now g
    · rw [hsame]
      exact ⟨h, fun i sr hsr => .inl (List.mem_map_of_mem hsr)⟩
    · rw [hadd]
      have hcount : sr.uuid.count = g.uuidCount := by rw [huuid]
      have hnew : ∀ i, ∀ l ∈ (g.services i).keys, sr.key.Apart l := by
        apply h.apart_new hsid hcount
        · intro i l hl
          obtain ⟨t, ht, rfl⟩ := List.mem_map.mp hl
          show t.addr ≠ sr.addr
          rw [haddr]
          exact hfresh a rfl i t ht
        · intro i l hl
          obtain ⟨t, ht, rfl⟩ := List.mem_map.mp hl
          dsimp only [Subscription.key]
          rw [huuid]
          exact hlast rfl rfl rfl i t ht
      refine ⟨h.add hsid hcount hnew, fun i t ht => .inl ?_⟩
      by_cases hi : i = svc
      · subst hi
        simp only [Gena.add, Gena.modify, Function.update_self]
        exact List.mem_map_of_mem (List.mem_cons_of_mem _ ht)
      · simp only [Gena.add, Gena.modify, Function.update_of_ne hi]
        exact List.mem_map_of_mem ht
  · obtain ⟨hcount, hlose⟩ := loses_run h hlast (by simpa using he)
    exact ⟨h.loses hcount hlose, fun i => (hlose i).kept⟩

/-! ### A run -/

/-- **Subscriptions stay apart, and end as they should**, in every run in which a SID is not used again while it is in
use and an error reply finds no other subscription at the address of the one that was notified. -/
theorem lifetime_of_run {g₀ : Gena} {es : List Event}
    (hstart : ∀ i, (g₀.services i).subscriptions = [] ∧ (g₀.services i).connections = [])
    (hrun : Run.Trace Step g₀ es g) :
    Distinct g ∧ ∀ e g', Step g e g' → ∀ i, ∀ sr ∈ (g.services i).subscriptions,
      sr.key ∈ (g'.services i).keys ∨ RemovedBy g i sr e := by
  have hinv : Inv g := by
    apply Run.Trace.inv (I := fun _ g => Inv g) _ _ hrun
    · have hnil : ∀ i, (g₀.services i).keys = [] := by
        intro i
        simp only [Service.keys, (hstart i).1, List.map_nil]
      refine ⟨⟨?_, ?_⟩, ?_, ?_⟩ <;> simp [hnil]
    · intro _ g e g' h hstep
      exact (h.step hstep).1
  exact ⟨hinv.toDistinct, fun e g' hstep => (hinv.step hstep).2⟩

/-- A subscription to the first service, without a TIMEOUT. -/
def subscribeAt (addr : ℕ) : Event := .subscribe 0 (some addr) (fun _ => 0) (fun _ => 0) true none none 0

/-- Two subscribers are notified. -/
theorem lifetime_of_run_two :
    let g := [subscribeAt 0x1000, subscribeAt 0x2000, .sendInitialEvents (fun _ _ => []) fun a => some (a, true)].foldl
      Event.run twoVars
    Distinct g ∧ ∀ e g', Step g e g' → ∀ i, ∀ sr ∈ (g.services i).subscriptions,
      sr.key ∈ (g'.services i).keys ∨ RemovedBy g i sr e := by
  have hone : ∀ i, ∀ sr ∈ ((Event.run twoVars (subscribeAt 0x1000)).services i).subscriptions,
      sr.addr = 0x1000 ∧ sr.uuid.count = 0
    | 0, sr, hsr => by
      cases List.mem_singleton.mp hsr
      exact ⟨rfl, rfl⟩
    | _ + 1, _, hsr => (nomatch hsr)
  have hfresh : Fresh (Event.run twoVars (subscribeAt 0x1000)) (subscribeAt 0x2000) := by
    intro a ha i sr hsr
    cases ha
    rw [(hone i sr hsr).1]
    decide
  have hlast : Lasting (Event.run twoVars (subscribeAt 0x1000)) (subscribeAt 0x2000) := by
    intro _ _ _ i sr hsr _ _
    rw [(hone i sr hsr).2]
    decide
  have hnone : ∀ i, ∀ sr ∈ (twoVars.services i).subscriptions, False := by
    intro i sr hsr
    cases hsr
  have hrun : Run.Trace Step twoVars [subscribeAt 0x1000, subscribeAt 0x2000,
      .sendInitialEvents (fun _ _ => []) fun a => some (a, true)] _ :=
    .cons ⟨fun _ _ i sr hsr => (hnone i sr hsr).elim, fun _ _ _ i sr hsr => (hnone i sr hsr).elim, rfl⟩
      (.cons ⟨hfresh, hlast, rfl⟩ (.cons ⟨trivial, trivial, rfl⟩ .nil))
  exact lifetime_of_run (fun _ => ⟨rfl, rfl⟩) hrun

/-- What the run of the code allows. -/
def Allowed (g : Gena) (e : Event) (g' : Gena) : Prop := Fresh g e ∧ e.run g = g'

theorem subscribeMany : ∀ n, ∃ g, Run.Trace Allowed twoVars ((List.range n).map subscribeAt) g ∧
    g.uuidCount = n ∧ (∀ i, i ≠ 0 → (g.services i).subscriptions = []) ∧
    (g.services 0).keys = (List.range n).reverse.map fun k =>
      ⟨k, Uuid.sid ⟨fun _ => 0, k, fun _ => 0⟩, fun _ => 0, k, fun _ => 0⟩
  | 0 => ⟨twoVars, .nil, rfl, fun _ _ => rfl, rfl⟩
  | n + 1 => by
    obtain ⟨g, hrun, hcount, hother, hkeys⟩ := subscribeMany n
    have hfresh : Fresh g (subscribeAt n) := by
      rintro a ha i sr hsr rfl
      cases ha
      by_cases hi : i = 0
      · subst hi
        have hmem : sr.key ∈ (g.services 0).keys := List.mem_map_of_mem hsr
        rw [hkeys] at hmem
        obtain ⟨k, hk, hsame⟩ := List.mem_map.mp hmem
        have haddr := congrArg Key.addr hsame
        rw [List.mem_reverse, List.mem_range] at hk
        exact absurd haddr hk.ne
      · rw [hother i hi] at hsr
        cases hsr
    refine ⟨(subscribeAt n).run g, ?_, ?_, ?_, ?_⟩
    · rw [List.range_succ, List.map_append]
      exact hrun.snoc ⟨hfresh, rfl⟩
    · exact congrArg (· + 1) hcount
    · intro i hi
      have hsame : ((subscribeAt n).run g).services i = g.services i := Function.update_of_ne hi _ _
      rw [hsame]
      exact hother i hi
    · rw [List.range_succ, List.reverse_append, List.map_append, ← hkeys, ← hcount]
      rfl

/-- The 257th subscription has the SID of the first. -/
theorem sid_repeats : ∃ g, Run.Trace Allowed twoVars ((List.range 257).map subscribeAt) g ∧ ¬Distinct g := by
  obtain ⟨g, hrun, _, _, hkeys⟩ := subscribeMany 257
  refine ⟨g, hrun, fun h => ?_⟩
  have hsame := h.same 0
  rw [hkeys, List.pairwise_map, List.pairwise_reverse] at hsame
  have happart := List.pairwise_iff_getElem.mp hsame 0 256 (by simp) (by simp) (by omega)
  apply happart.2.1
  simp only [List.getElem_range]
  rfl

/-- A subscriber is notified and unsubscribes, and `malloc` returns the same address to the next. -/
def reuse : List Event :=
  [subscribeAt 0x1000, .sendInitialEvents (fun _ _ => []) fun _ => some (5, true),
    .unsubscribe 0 (some (Uuid.sid ⟨fun _ => 0, 0, fun _ => 0⟩)) false 0, subscribeAt 0x1000]

/-- The reply to the first. -/
def lateReply : Event := .reply 0 5 (bytes "HTTP/1.1 412 Precondition Failed")

/-- The reply to a subscriber that has unsubscribed ends the one that came after it. -/
theorem reply_removes_another :
    let g := reuse.foldl Event.run twoVars
    Run.Trace Allowed twoVars reuse g ∧ Fresh g lateReply ∧
      ∃ sr ∈ (g.services 0).subscriptions, sr.key ∉ ((lateReply.run g).services 0).keys ∧ ¬RemovedBy g 0 sr lateReply := by
  have hnone : ∀ i, (((reuse.take 3).foldl Event.run twoVars).services i).subscriptions = []
    | 0 => by rfl
    | _ + 1 => rfl
  have hfresh : Fresh ((reuse.take 3).foldl Event.run twoVars) (subscribeAt 0x1000) := by
    intro a _ i sr hsr
    rw [hnone i] at hsr
    cases hsr
  have hrun : Run.Trace Allowed twoVars reuse (reuse.foldl Event.run twoVars) :=
    .cons ⟨fun _ _ _ _ hsr => (nomatch hsr), rfl⟩
      (.cons ⟨trivial, rfl⟩ (.cons ⟨trivial, rfl⟩ (.cons ⟨hfresh, rfl⟩ .nil)))
  have hgone : ((lateReply.run (reuse.foldl Event.run twoVars)).services 0).keys = [] := by rfl
  refine ⟨hrun, trivial, _, List.mem_singleton_self _, ?_, ?_⟩
  · rw [hgone]
    exact List.not_mem_nil
  · rintro ⟨_, _, gc, hgc, _, hcount⟩
    cases List.mem_singleton.mp hgc
    exact absurd hcount (by decide)

end Upnp
end Router
