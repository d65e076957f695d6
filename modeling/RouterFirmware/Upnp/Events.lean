/-
# The stream of notifications

A subscriber should first be sent all evented variables, with SEQ 0, and then changes, with the numbers that follow
(`Stream`). The numbers are right in every run: `event_key` is the one after the last that was sent, and it is 0
only before the first (`Ready`).

But `update_all_subscriptions` does not look at it. A subscriber that has not been sent the initial event gets the
changed variables only, with SEQ 0, and no initial event then. `stream_of_run` is for the runs where each update finds
the initial events sent to all that it reaches, or all evented variables changed.
-/
import RouterFirmware.Lib.Run
import RouterFirmware.Upnp.Gena

namespace Router
namespace Upnp

open CMem CText

variable {g g' : Gena} {psvc : Service} {vars : List StateVar} {sr : Subscription} {net : Network}

/-! ### What a subscriber is sent -/

/-- The evented variables of a service. -/
def eventedVars (vars : List StateVar) : List ℕ := (vars.zipIdx.filter fun v => v.1.evented).map Prod.snd

/-- All evented variables with SEQ 0, and then one number after the other, where 1 follows 4294967295. -/
def Stream (vars : List StateVar) (sent : List Notification) : Prop :=
  (∀ n ∈ sent.head?, n.seq = 0 ∧ n.vars.map Prod.fst = eventedVars vars) ∧
    sent.IsChain fun m n => n.seq = nextKey m.seq

/-- When an event keeps the streams: an update writes to no subscription that waits for its initial event, or finds
all evented variables changed. -/
def Full (g : Gena) : Event → Prop
  | .updateAll svc _ net =>
    (∀ sr ∈ (g.services svc).subscriptions, (∃ fd, net sr.addr = some (fd, true)) → sr.eventKey ≠ 0) ∨
      ∀ v ∈ (g.services svc).vars, v.evented → v.changed
  | _ => True

/-! ### A subscription -/

theorem nextKey_ne_zero (key : UInt32) : nextKey key ≠ 0 := by
  unfold nextKey
  split_ifs with h
  · decide
  · exact h

/-- The stream is right so far, and the key is the number that comes next. -/
structure Ready (vars : List StateVar) (sr : Subscription) : Prop where
  stream : Stream vars sr.sent
  key : sr.eventKey = (sr.sent.getLast?).elim 0 fun n => nextKey n.seq

theorem Ready.eventKey_eq_zero (h : Ready vars sr) : sr.eventKey = 0 ↔ sr.sent = [] := by
  rw [h.key]
  cases hlast : sr.sent.getLast? with
  | none => exact iff_of_true rfl (List.getLast?_eq_none_iff.mp hlast)
  | some n =>
    apply iff_of_false (nextKey_ne_zero n.seq)
    rintro hnil
    rw [hnil] at hlast
    cases hlast

/-- A new subscription. -/
theorem Ready.new (hkey : sr.eventKey = 0) (hsent : sr.sent = []) : Ready vars sr := by
  refine ⟨⟨?_, ?_⟩, ?_⟩
  · rw [hsent]
    exact fun n hn => absurd hn (by simp)
  · rw [hsent]
    exact List.isChain_nil
  · rw [hsent, hkey]
    rfl

/-- A subscription is notified, of all evented variables if it is the first time. -/
theorem Ready.notify {body : List (ℕ × Bytes)} (h : Ready vars sr)
    (hfirst : (∃ fd, net sr.addr = some (fd, true)) → sr.eventKey = 0 → body.map Prod.fst = eventedVars vars) :
    Ready vars (genaNotify net body sr).1 := by
  unfold genaNotify
  cases hnet : net sr.addr with
  | none => exact h
  | some connection =>
    obtain ⟨fd, written⟩ := connection
    dsimp only
    split_ifs with hwritten
    · refine ⟨⟨?_, ?_⟩, ?_⟩
      · intro n hn
        by_cases hnil : sr.sent = []
        · have hkey := h.eventKey_eq_zero.mpr hnil
          rw [hnil] at hn
          cases hn
          rw [hwritten] at hnet
          exact ⟨hkey, hfirst ⟨fd, hnet⟩ hkey⟩
        · rw [List.head?_append_of_ne_nil _ hnil] at hn
          exact h.stream.1 n hn
      · apply List.IsChain.append h.stream.2 (List.isChain_singleton _)
        intro m hm n hn
        cases hn
        rw [Option.mem_def] at hm
        rw [h.key, hm]
        rfl
      · dsimp only
        rw [List.getLast?_append]
        rfl
    · exact h

/-! ### A service -/

theorem eventedVars_congr {vars' : List StateVar} (h : vars'.map StateVar.evented = vars.map StateVar.evented) :
    eventedVars vars' = eventedVars vars := by
  have hgen : ∀ vars : List StateVar,
      eventedVars vars = (((vars.map StateVar.evented).zipIdx).filter fun v => v.1).map Prod.snd := by
    intro vars
    rw [List.zipIdx_map, List.filter_map, List.map_map]
    rfl
  rw [hgen, hgen, h]

theorem Ready.congr {vars' : List StateVar} (hvars : eventedVars vars' = eventedVars vars) (h : Ready vars sr) :
    Ready vars' sr := by
  refine ⟨⟨?_, h.stream.2⟩, h.key⟩
  rw [hvars]
  exact h.stream.1

/-- All streams of a service are right. -/
def AllReady (psvc : Service) : Prop := ∀ sr ∈ psvc.subscriptions, Ready psvc.vars sr

/-- Subscriptions are taken away, and perhaps given another expiry. -/
theorem AllReady.mono {psvc' : Service} (h : AllReady psvc) (hvars : eventedVars psvc'.vars = eventedVars psvc.vars)
    (hsubs : ∀ sr' ∈ psvc'.subscriptions, ∃ sr ∈ psvc.subscriptions, sr'.sent = sr.sent ∧ sr'.eventKey = sr.eventKey) :
    AllReady psvc' := by
  intro sr' hsr'
  obtain ⟨sr, hsr, hsent, hkey⟩ := hsubs sr' hsr'
  obtain ⟨hstream, hnext⟩ := (h sr hsr).congr hvars
  refine ⟨?_, ?_⟩
  · rw [hsent]
    exact hstream
  · rw [hsent, hkey]
    exact hnext

theorem AllReady.deleteSubscription (h : AllReady psvc) (addr : ℕ) : AllReady (deleteSubscription addr psvc) :=
  h.mono rfl fun sr hsr => ⟨sr, List.mem_of_mem_eraseP hsr, rfl, rfl⟩

theorem AllReady.notifyWhere {p : Subscription → Bool} {body : List (ℕ × Bytes)} (h : AllReady psvc)
    (hfirst : ∀ sr ∈ psvc.subscriptions, p sr → (∃ fd, net sr.addr = some (fd, true)) → sr.eventKey = 0 →
      body.map Prod.fst = eventedVars psvc.vars) :
    AllReady (notifyWhere p net body psvc) := by
  intro sr' hsr'
  obtain ⟨sr, hsr, rfl⟩ := List.mem_map.mp hsr'
  split_ifs with hp
  · exact (h sr hsr).notify (hfirst sr hsr hp)
  · exact h sr hsr

/-- The body of an initial event has all evented variables. -/
theorem buildNotifyBody_all (vars : List StateVar) (read : ℕ → Bytes) :
    (buildNotifyBody vars read false).1.map Prod.fst = eventedVars vars := by
  simp only [buildNotifyBody, List.map_map, Bool.not_false, Bool.true_or, Bool.and_true]
  rfl

/-- So has that of an update, if they have all changed. -/
theorem buildNotifyBody_changed (read : ℕ → Bytes) (h : ∀ v ∈ vars, v.evented → v.changed) :
    (buildNotifyBody vars read true).1.map Prod.fst = eventedVars vars := by
  have hfilter : (vars.zipIdx.filter fun v => v.1.evented && (!true || v.1.changed)) =
      vars.zipIdx.filter fun v => v.1.evented := by
    apply List.filter_congr
    intro v hv
    have hmem : v.1 ∈ vars := List.fst_mem_of_mem_zipIdx hv
    cases hev : v.1.evented with
    | false => rfl
    | true => simpa using h v.1 hmem hev
  simp only [buildNotifyBody, List.map_map, hfilter]
  rfl

theorem AllReady.svcSendInitialEvents (h : AllReady psvc) (read : ℕ → Bytes) :
    AllReady (svcSendInitialEvents read net psvc) := by
  unfold Upnp.svcSendInitialEvents
  dsimp only
  split_ifs
  · exact h.notifyWhere fun _ _ _ _ _ => buildNotifyBody_all psvc.vars read
  · exact h
  · exact h

theorem AllReady.updateAllSubscriptions (h : AllReady psvc) (read : ℕ → Bytes)
    (hfull : (∀ sr ∈ psvc.subscriptions, (∃ fd, net sr.addr = some (fd, true)) → sr.eventKey ≠ 0) ∨
      ∀ v ∈ psvc.vars, v.evented → v.changed) :
    AllReady (updateAllSubscriptions read net psvc) := by
  have hevented : eventedVars (buildNotifyBody psvc.vars read true).2 = eventedVars psvc.vars := by
    apply eventedVars_congr
    simp [buildNotifyBody]
  unfold Upnp.updateAllSubscriptions
  dsimp only
  split_ifs
  · have hready : AllReady { psvc with vars := (buildNotifyBody psvc.vars read true).2, changed := false } :=
      h.mono hevented fun sr hsr => ⟨sr, hsr, rfl, rfl⟩
    apply hready.notifyWhere
    intro sr hsr _ hwritten hkey
    rw [hevented]
    rcases hfull with hsent | hchanged
    · exact absurd hkey (hsent sr hsr hwritten)
    · exact buildNotifyBody_changed read hchanged
  · exact h.mono rfl fun sr hsr => ⟨sr, hsr, rfl, rfl⟩

theorem AllReady.markChanged (h : AllReady psvc) (k : ℕ) : AllReady (markChanged k psvc) := by
  apply h.mono
  · apply eventedVars_congr
    apply List.ext_getElem
    · simp [Upnp.markChanged]
    · intro i h1 h2
      simp only [Upnp.markChanged, List.getElem_map, List.getElem_modify]
      split_ifs <;> rfl
  · exact fun sr hsr => ⟨sr, hsr, rfl, rfl⟩

/-! ### A run -/

theorem forall_modify {P : Service → Prop} (h : ∀ i, P (g.services i)) {svc : ℕ} {f : Service → Service}
    (hf : P (f (g.services svc))) : ∀ i, P ((g.modify svc f).services i) := by
  intro i
  unfold Gena.modify
  dsimp only
  by_cases hi : i = svc
  · subst hi
    rwa [Function.update_self]
  · rw [Function.update_of_ne hi]
    exact h i

/-- What an event keeps. -/
theorem allReady_run {e : Event} (h : ∀ i, AllReady (g.services i)) (hfull : Full g e) :
    ∀ i, AllReady ((e.run g).services i) := by
  cases e with
  | subscribe svc addr lanHwaddr rest cb sid timeout now =>
    show ∀ i, AllReady ((genaNewSubscription svc addr lanHwaddr rest cb sid timeout now g).services i)
    unfold genaNewSubscription
    split_ifs
    · exact h
    · cases addr with
      | none => exact h
      | some addr =>
        dsimp only
        apply forall_modify h
        intro sr hsr
        rcases List.mem_cons.mp hsr with rfl | hsr
        · exact .new rfl rfl
        · exact h svc sr hsr
  | renew svc cb sid timeout now =>
    apply forall_modify h
    unfold genaRenewSubscription
    cases sid.bind fun sid => findBySid (g.services svc) sid now with
    | none => exact h svc
    | some sr =>
      dsimp only
      split_ifs
      · exact h svc
      · refine AllReady.mono (h svc) (by rfl) ?_
        intro sr' hsr'
        obtain ⟨sr'', hsr'', rfl⟩ := List.mem_map.mp hsr'
        refine ⟨sr'', hsr'', ?_⟩
        split_ifs <;> exact ⟨rfl, rfl⟩
  | unsubscribe svc sid badheaders now =>
    apply forall_modify h
    unfold processUnsubscribe
    cases sid.bind fun sid => findBySid (g.services svc) sid now with
    | none => exact h svc
    | some psub =>
      dsimp only
      split_ifs
      · exact h svc
      · exact (h svc).deleteSubscription psub.addr
  | reap now => exact fun i => (h i).mono rfl fun sr hsr => ⟨sr, List.mem_of_mem_filter hsr, rfl, rfl⟩
  | markChanged svc k => exact forall_modify h ((h svc).markChanged k)
  | sendInitialEvents read net => exact fun i => (h i).svcSendInitialEvents (read i)
  | updateAll svc read net => exact forall_modify h ((h svc).updateAllSubscriptions read hfull)
  | reply svc fd buf =>
    apply forall_modify h
    unfold processReceive genaConnectionHandler removeNetConnection
    cases (g.services svc).connections.find? (·.fd = fd) with
    | none => exact h svc
    | some gc =>
      dsimp only
      split_ifs
      · exact (h svc).mono rfl fun sr hsr => ⟨sr, hsr, rfl, rfl⟩
      · exact ((h svc).deleteSubscription gc.sub).mono rfl fun sr hsr => ⟨sr, hsr, rfl, rfl⟩
  | connectionReaper svc fd =>
    apply forall_modify h
    exact (h svc).mono rfl fun sr hsr => ⟨sr, hsr, rfl, rfl⟩

/-- **Each subscriber is sent a consistent stream** in every run whose updates find the initial events sent to all that
they reach, or all evented variables changed. -/
theorem stream_of_run {g₀ : Gena} {es : List Event} (hstart : ∀ i, (g₀.services i).subscriptions = [])
    (hrun : Run.Trace (fun g e g' => Full g e ∧ e.run g = g') g₀ es g) :
    ∀ i, ∀ sr ∈ (g.services i).subscriptions, Stream (g.services i).vars sr.sent := by
  have hready : ∀ i, AllReady (g.services i) := by
    apply Run.Trace.inv (I := fun _ g => ∀ i, AllReady (g.services i)) _ _ hrun
    · intro i sr hsr
      rw [hstart i] at hsr
      cases hsr
    · rintro _ g e _ h ⟨hfull, rfl⟩
      exact allReady_run h hfull
  exact fun i sr hsr => (hready i sr hsr).stream

/-- Services of two evented variables, and no subscriptions. -/
def twoVars : Gena := ⟨fun _ => ⟨[⟨true, false⟩, ⟨true, false⟩], false, [], []⟩, 0⟩

/-- A subscription to the first service, for good. -/
def subscribeFirst : Event :=
  .subscribe 0 (some 0x1000) (fun _ => 0) (fun _ => 0) true none (some (bytes "Second-infinite")) 0

/-- The initial event is sent before a variable changes. -/
theorem stream_of_run_initial :
    let g := [subscribeFirst, .sendInitialEvents (fun _ _ => []) (fun _ => some (5, true)), .markChanged 0 1,
      .updateAll 0 (fun _ => []) (fun _ => some (6, true))].foldl Event.run twoVars
    ∀ i, ∀ sr ∈ (g.services i).subscriptions, Stream (g.services i).vars sr.sent := by
  have hsent : ∀ sr ∈ ((([subscribeFirst, .sendInitialEvents (fun _ _ => []) (fun _ => some (5, true)),
      .markChanged 0 1].foldl Event.run twoVars).services 0).subscriptions), sr.eventKey ≠ 0 := by
    intro sr hsr
    cases List.mem_singleton.mp hsr
    decide
  have hrun : Run.Trace (fun g e g' => Full g e ∧ e.run g = g') twoVars [subscribeFirst,
      .sendInitialEvents (fun _ _ => []) (fun _ => some (5, true)), .markChanged 0 1,
      .updateAll 0 (fun _ => []) (fun _ => some (6, true))] _ :=
    .cons ⟨trivial, rfl⟩ (.cons ⟨trivial, rfl⟩ (.cons ⟨trivial, rfl⟩ (.cons ⟨.inl fun sr hsr _ => hsent sr hsr, rfl⟩ .nil)))
  exact stream_of_run (fun _ => rfl) hrun

/-- A variable changes before the initial event is sent, which it then never is. -/
theorem initial_event_lost :
    let g := [subscribeFirst, .markChanged 0 1, .updateAll 0 (fun _ => []) (fun _ => some (5, true)),
      .sendInitialEvents (fun _ _ => []) (fun _ => some (6, true))].foldl Event.run twoVars
    ∃ sr ∈ (g.services 0).subscriptions, sr.sent = [⟨0, [(1, [])]⟩] ∧ ¬Stream (g.services 0).vars sr.sent := by
  refine ⟨_, List.mem_singleton_self _, rfl, fun h => ?_⟩
  have hvars := (h.1 _ rfl).2
  exact absurd hvars (by decide)

end Upnp
end Router
