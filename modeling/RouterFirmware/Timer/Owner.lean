/-
# Where the event structures are

Each event structure stands on the queue, on the free list, or with the
program. `Owns` says which stand on the two lists, and one lemma for each
operation says what it does to them (`Owns.create`, `Owns.cancel`,
`Owns.settime`, `Owns.pop`, `Owns.requeue`). All of them leave the lists they
are not about alone, since no event is on both.

The handler puts an event back if the event's own fields say that it recurs.
Those fields may be about another timer than the one that fired: a callback
that deletes its timer and creates one gets the same structure, with the old
interval still in it.
-/
import RouterFirmware.Timer.Handler
import RouterFirmware.Timer.Cancel

namespace Router
namespace Timer

open Timeval Timers

variable {n : ℕ} {R : Type}

/-! ### What the list operations leave alone -/

namespace Timers

/-- The free list is where it was, and the flags are as they were. -/
structure SameFlags (s s' : Timers n) : Prop where
  eventFreelist : s'.eventFreelist = s.eventFreelist
  cancelled : ∀ p, (s'.event p).cancelled = (s.event p).cancelled
  deleted : ∀ p, (s'.event p).deleted = (s.event p).deleted

theorem SameFlags.refl (s : Timers n) : SameFlags s s := ⟨rfl, fun _ => rfl, fun _ => rfl⟩

theorem SameFlags.trans {s s' s'' : Timers n} (h : SameFlags s s') (h' : SameFlags s' s'') :
    SameFlags s s'' :=
  ⟨h'.eventFreelist.trans h.eventFreelist, fun p => (h'.cancelled p).trans (h.cancelled p),
    fun p => (h'.deleted p).trans (h.deleted p)⟩

theorem event_setEvent (s : Timers n) (e : Fin n) (ev : Event n) (p : Fin n) :
    ((s.setEvent e ev).event p) = if p = e then ev else s.event p := by
  unfold setEvent
  by_cases h : p = e
  · subst h
    simp
  · simp [h]

theorem sameFlags_setEvent (s : Timers n) (e : Fin n) {ev : Event n}
    (hc : ev.cancelled = (s.event e).cancelled) (hd : ev.deleted = (s.event e).deleted) :
    SameFlags s (s.setEvent e ev) := by
  refine ⟨rfl, fun p => ?_, fun p => ?_⟩
  · rw [event_setEvent]
    split_ifs with hp
    · rw [hp, hc]
    · rfl
  · rw [event_setEvent]
    split_ifs with hp
    · rw [hp, hd]
    · rfl

theorem sameFlags_setValue (s : Timers n) (e : Fin n) (v : Timeval) :
    SameFlags s (s.setValue e v) := sameFlags_setEvent s e rfl rfl

theorem sameFlags_setInterval (s : Timers n) (e : Fin n) (v : Timeval) :
    SameFlags s (s.setInterval e v) := sameFlags_setEvent s e rfl rfl

theorem sameFlags_setNext (s : Timers n) (e : Fin n) (o : Option (Fin n)) :
    SameFlags s (s.setNext e o) := sameFlags_setEvent s e rfl rfl

theorem sameFlags_store (s : Timers n) (o pp : Option (Fin n)) : SameFlags s (s.store o pp) := by
  cases pp with
  | none => exact ⟨rfl, fun _ => rfl, fun _ => rfl⟩
  | some p => exact sameFlags_setNext s p o

theorem sameFlags_setitimer (s : Timers n) (v : Timeval) : SameFlags s (s.setitimer v) :=
  ⟨rfl, fun _ => rfl, fun _ => rfl⟩

theorem sameFlags_linked (s : Timers n) (e : Fin n) (pp : Option (Fin n)) :
    SameFlags s (s.linked e pp) := (sameFlags_setNext s e _).trans (sameFlags_store _ _ _)

theorem sameFlags_settimeLoop {e : Fin n} : ∀ {fuel : ℕ} {s s' : Timers n}
    {pp pp' : Option (Fin n)}, settimeLoop e fuel s pp = some (s', pp') → SameFlags s s'
  | 0, _, _, _, _, h => by cases h
  | fuel + 1, s, s', pp, pp', h => by
    rw [settimeLoop] at h
    cases hload : s.load pp with
    | none =>
      rw [hload] at h
      cases h
      exact SameFlags.refl _
    | some q =>
      simp only [hload] at h
      split_ifs at h with hlt
      · cases h
        exact sameFlags_setValue _ _ _
      · exact (sameFlags_setValue _ _ _).trans (sameFlags_settimeLoop h)

theorem sameFlags_correctHead (s : Timers n) : SameFlags s s.correctHead := by
  unfold correctHead
  split
  · split_ifs
    · exact SameFlags.refl _
    · exact sameFlags_setValue _ _ _
  · exact SameFlags.refl _

theorem correctHead_links (s : Timers n) : SameLinks s s.correctHead := by
  unfold correctHead
  split
  · split_ifs
    · exact ⟨rfl, rfl, rfl, rfl⟩
    · exact sameLinks_setValue _ _ _
  · exact ⟨rfl, rfl, rfl, rfl⟩

theorem sameFlags_cancelHead (s : Timers n) (e : Fin n) : SameFlags s (s.cancelHead e) := by
  unfold cancelHead
  cases s.next e with
  | none => exact SameFlags.refl _
  | some q =>
    simp only
    split_ifs
    · exact (sameFlags_setValue _ _ _).trans (sameFlags_setValue _ _ _)
    · exact SameFlags.refl _

/-- Issuing the timer for the head changes the head's value only. -/
theorem reissue_same {s s' : Timers n} {h : Fin n} (hs : s.reissue h = some s') :
    s'.next = s.next ∧ s'.eventQueue = s.eventQueue ∧ SameFlags s s' := by
  unfold reissue at hs
  dsimp only at hs
  obtain ⟨-, hs⟩ := Option.ite_none_right_eq_some.mp hs
  cases hs
  exact ⟨next_setValue s h _, rfl, (sameFlags_setValue s h _).trans (sameFlags_setitimer _ _)⟩

theorem alarmReissue_same (s : Timers n) :
    s.alarmReissue.next = s.next ∧ s.alarmReissue.eventQueue = s.eventQueue ∧
      SameFlags s s.alarmReissue := by
  unfold alarmReissue
  cases hq : s.eventQueue with
  | none => exact ⟨rfl, hq, SameFlags.refl _⟩
  | some h =>
    refine ⟨next_setValue s h _, hq, ?_⟩
    exact (sameFlags_setValue s h _).trans (sameFlags_setitimer _ _)

/-- Linking an event in writes to it and to an event of the queue. -/
theorem next_linked_of_ne (s : Timers n) {e p : Fin n} {pp : Option (Fin n)} (hpe : p ≠ e)
    (hpp : pp ≠ some p) : (s.linked e pp).next p = s.next p := by
  unfold linked
  cases pp with
  | none =>
    show (s.setNext e _).next p = _
    rw [next_setNext, Function.update_of_ne hpe]
  | some x =>
    have hpx : p ≠ x := fun hpx => hpp (congrArg some hpx.symm)
    show ((s.setNext e _).setNext x _).next p = _
    rw [next_setNext, Function.update_of_ne hpx, next_setNext, Function.update_of_ne hpe]

/-! ### The two lists -/

/-- The events on the queue and on the free list; none is on both. -/
structure Owns (s : Timers n) (q f : List (Fin n)) : Prop where
  queue : s.Queue q
  free : Linked s.next s.eventFreelist f
  disjoint : List.Disjoint q f

variable {s s' : Timers n} {e : Fin n} {q f : List (Fin n)}

/-- Nothing but values and flags changes. -/
theorem Owns.same (h : Owns s q f) (hnext : s'.next = s.next) (hq : s'.eventQueue = s.eventQueue)
    (hf : s'.eventFreelist = s.eventFreelist) : Owns s' q f := by
  refine ⟨?_, ?_, h.disjoint⟩
  · unfold Queue
    rw [hnext, hq]
    exact h.queue
  · rw [hnext, hf]
    exact h.free

/-- A new queue of events that are not free. -/
theorem Owns.requeued (h : Owns s q f) {q' : List (Fin n)} (hq : s'.Queue q')
    (hf : s'.eventFreelist = s.eventFreelist) (hnext : ∀ p ∈ f, s'.next p = s.next p)
    (hd : List.Disjoint q' f) : Owns s' q' f := by
  refine ⟨hq, ?_, hd⟩
  rw [hf]
  exact h.free.congr hnext

/-- The loop and the linking, as `timer_settime` and the handler do them. -/
theorem Owns.insert (h : Owns s q f) (heq : e ∉ q) (hef : e ∉ f) :
    ∃ s' pp q', settimeLoop e (n + 1) s none = some (s', pp) ∧ q'.Perm (e :: q) ∧
      Owns (s'.linked e pp) q' f ∧ SameFlags s (s'.linked e pp) := by
  obtain ⟨s', q₁, q₂, rfl, hloop, hlinks, -⟩ := settimeLoop_spec
    (show Linked s.next (s.load none) q from h.queue) heq (Nat.lt_succ_of_le h.queue.length_le)
  rw [Option.or_none] at hloop
  have hflags : SameFlags s (s'.linked e q₁.getLast?) :=
    (sameFlags_settimeLoop hloop).trans (sameFlags_linked _ _ _)
  refine ⟨s', q₁.getLast?, q₁ ++ e :: q₂, hloop, List.perm_middle, ?_, hflags⟩
  refine h.requeued ((hlinks.queue h.queue).link heq) hflags.eventFreelist ?_ ?_
  · intro p hp
    have hpe : p ≠ e := fun hpe => hef (hpe ▸ hp)
    have hlast : q₁.getLast? ≠ some p := by
      intro hlast
      have hmem : p ∈ q₁ := List.mem_of_getLast? hlast
      exact h.disjoint (List.mem_append_left _ hmem) hp
    rw [next_linked_of_ne _ hpe hlast, hlinks.next]
  · intro p hp hpf
    rcases List.mem_cons.mp (List.perm_middle.mem_iff.mp hp) with rfl | hp
    · exact hef hpf
    · exact h.disjoint hp hpf

/-! ### What each operation does to them -/

/-- An event that is not on the queue is looked for to its end. -/
theorem cancelLoop_of_notMem : ∀ {l : List (Fin n)} {fuel : ℕ} {pp : Option (Fin n)},
    Linked s.next (s.load pp) l → e ∉ l → l.length < fuel → s.cancelLoop e fuel pp = some s
  | [], fuel + 1, pp, h, _, _ => by
    have hload : s.load pp = none := h
    rw [cancelLoop, hload]
  | p :: l, fuel + 1, pp, h, he, hf => by
    have hpe : p ≠ e := fun hpe => he (hpe ▸ List.mem_cons_self)
    rw [cancelLoop, h.1]
    simp only [if_neg hpe]
    exact cancelLoop_of_notMem h.2 (fun hm => he (List.mem_cons_of_mem _ hm))
      (Nat.lt_of_succ_lt_succ hf)

theorem next_unlinked_of_ne (s : Timers n) {e p : Fin n} {pp : Option (Fin n)} (hpe : p ≠ e)
    (hpp : pp ≠ some p) : (s.unlinked e pp).next p = s.next p := by
  have hlinks := cancelHead_links s e
  unfold unlinked
  rw [next_setNext, Function.update_of_ne hpe]
  cases pp with
  | none => exact congrFun hlinks.next p
  | some x =>
    have hpx : p ≠ x := fun hpx => hpp (congrArg some hpx.symm)
    show (Timers.setNext _ x _).next p = _
    rw [next_setNext, Function.update_of_ne hpx, hlinks.next]

theorem sameFlags_unlinked (s : Timers n) (e : Fin n) (pp : Option (Fin n)) :
    SameFlags s (s.unlinked e pp) :=
  ((sameFlags_cancelHead s e).trans (sameFlags_store _ _ _)).trans (sameFlags_setNext _ _ _)

/-- The loop of `timer_cancel` takes the event off the queue. -/
theorem Owns.cancelLoop (h : Owns s q f) (hloop : s.cancelLoop e (n + 1) none = some s') :
    Owns s' (q.erase e) f ∧ SameFlags s s' := by
  by_cases he : e ∈ q
  · obtain ⟨pre, post, rfl⟩ := List.append_of_mem he
    have hout := notMem_of_queue h.queue
    have hpre : e ∉ pre := fun hm => hout (List.mem_append_left _ hm)
    have hlen : pre.length < n + 1 := by
      have hle := h.queue.length_le
      rw [List.length_append] at hle
      omega
    rw [cancelLoop_eq (show Linked s.next (s.load none) _ from h.queue) hpre hlen, Option.or_none,
      unlink_eq pre post h.queue] at hloop
    have hfree : ∀ p ∈ f, (s.unlinked e pre.getLast?).next p = s.next p := by
      intro p hp
      refine next_unlinked_of_ne s ?_ ?_
      · intro hpe
        exact h.disjoint (hpe ▸ he) hp
      · intro hlast
        exact h.disjoint (List.mem_append_left _ (List.mem_of_getLast? hlast)) hp
    have hflags := sameFlags_unlinked s e pre.getLast?
    have hunlinked : Owns (s.unlinked e pre.getLast?) (pre ++ post) f := by
      refine h.requeued (unlinked_facts pre post h.queue).1 hflags.eventFreelist hfree ?_
      intro p hp hpf
      exact h.disjoint (List.perm_middle.mem_iff.mpr (List.mem_cons_of_mem _ hp)) hpf
    rw [List.erase_append_right _ hpre, List.erase_cons_head]
    revert hloop
    cases hl : pre ++ post with
    | nil =>
      intro hloop
      cases hloop
      exact ⟨hl ▸ hunlinked.same rfl rfl rfl, hflags.trans (sameFlags_setitimer _ _)⟩
    | cons x l =>
      intro hloop
      obtain ⟨hnext, hqueue, hsame⟩ := reissue_same hloop
      exact ⟨hl ▸ hunlinked.same hnext hqueue hsame.eventFreelist, hflags.trans hsame⟩
  · rw [cancelLoop_of_notMem (show Linked s.next (s.load none) q from h.queue) he
      (Nat.lt_succ_of_le h.queue.length_le)] at hloop
    cases hloop
    rw [List.erase_of_not_mem he]
    exact ⟨h, SameFlags.refl _⟩

/-- The flags after an operation on `e`: those of the other events are as they were. -/
structure FlagsBut (e : Fin n) (cancelled deleted : Bool) (s s' : Timers n) : Prop where
  cancelled_self : (s'.event e).cancelled = cancelled
  deleted_self : (s'.event e).deleted = deleted
  cancelled : ∀ p ≠ e, (s'.event p).cancelled = (s.event p).cancelled
  deleted : ∀ p ≠ e, (s'.event p).deleted = (s.event p).deleted

theorem SameFlags.but (h : SameFlags s s') (e : Fin n) :
    FlagsBut e (s.event e).cancelled (s.event e).deleted s s' :=
  ⟨h.cancelled e, h.deleted e, fun p _ => h.cancelled p, fun p _ => h.deleted p⟩

theorem FlagsBut.setEvent {c d c' d' : Bool} (h : FlagsBut e c d s s') {ev : Event n}
    (hc : ev.cancelled = c') (hd : ev.deleted = d') : FlagsBut e c' d' s (s'.setEvent e ev) := by
  refine ⟨?_, ?_, fun p hp => ?_, fun p hp => ?_⟩
  · rw [event_setEvent, if_pos rfl, hc]
  · rw [event_setEvent, if_pos rfl, hd]
  · rw [event_setEvent, if_neg hp]
    exact h.cancelled p hp
  · rw [event_setEvent, if_neg hp]
    exact h.deleted p hp

theorem FlagsBut.setNext {c d : Bool} (h : FlagsBut e c d s s') (o : Option (Fin n)) :
    FlagsBut e c d s (s'.setNext e o) := h.setEvent h.cancelled_self h.deleted_self

/-- `timer_cancel`, where an event on the queue has not been cancelled. -/
theorem Owns.cancel (h : Owns s q f) (hc : e ∈ q → (s.event e).cancelled = false)
    (hrun : timerCancel s e = some s') :
    Owns s' (q.erase e) f ∧ FlagsBut e true (s.event e).deleted s s' ∧
      s'.eventFreelist = s.eventFreelist := by
  unfold timerCancel at hrun
  split_ifs at hrun with hcancelled
  · cases hrun
    have he : e ∉ q := fun he => by rw [hc he] at hcancelled; cases hcancelled
    rw [List.erase_of_not_mem he]
    exact ⟨h, hcancelled ▸ (SameFlags.refl s).but e, rfl⟩
  · obtain ⟨t, hloop, rfl⟩ := Option.map_eq_some_iff.mp hrun
    obtain ⟨howns, hflags⟩ := h.cancelLoop hloop
    refine ⟨howns.same (next_setCancelled t e true) rfl rfl, ?_, hflags.eventFreelist⟩
    exact (hflags.but e).setEvent rfl (hflags.deleted e)

/-- `timer_delete`, for a timer that has not been deleted. -/
theorem Owns.delete (h : Owns s q f) (hc : e ∈ q → (s.event e).cancelled = false)
    (hd : (s.event e).deleted = false) (hef : e ∉ f) {r : Timers n × ℤ}
    (hrun : timerDelete s e = some r) :
    Owns r.1 (q.erase e) (e :: f) ∧ FlagsBut e true true s r.1 := by
  unfold timerDelete at hrun
  rw [hd] at hrun
  obtain ⟨t, hcancel, rfl⟩ := Option.map_eq_some_iff.mp hrun
  obtain ⟨howns, hflags, -⟩ := h.cancel hc hcancel
  have heq : e ∉ q.erase e := h.queue.nodup.not_mem_erase
  constructor
  · refine ⟨?_, ?_, ?_⟩
    · show Linked (Timers.setNext (t.setDeleted e true) e _).next _ _
      rw [next_setNext, setDeleted, next_setEvent]
      exact (howns.queue.update_of_notMem heq _).update_of_notMem heq _
    · show Linked (Timers.setNext (t.setDeleted e true) e _).next _ _
      rw [next_setNext, setDeleted, next_setEvent]
      exact (howns.free.update_of_notMem hef _).push hef
    · intro p hp hpf
      rcases List.mem_cons.mp hpf with rfl | hpf
      · exact heq hp
      · exact howns.disjoint hp hpf
  · have hset : FlagsBut e true true s (t.setDeleted e true) :=
      hflags.setEvent hflags.cancelled_self rfl
    have hnext := hset.setNext t.eventFreelist
    exact ⟨hnext.cancelled_self, hnext.deleted_self, hnext.cancelled, hnext.deleted⟩

/-- `timer_settime` with a time to wait, for an event that is on no list. -/
theorem Owns.settime (h : Owns s q f) (heq : e ∉ q) (hef : e ∉ f) {value : Itimerspec}
    (hset : value.itValue.toTimeval.timerisset = true) (hrun : timerSettime s e value = some s') :
    ∃ q', q'.Perm (e :: q) ∧ Owns s' q' f ∧ FlagsBut e false (s.event e).deleted s s' := by
  have hprep : SameFlags s (s.prepared e value).correctHead :=
    (((sameFlags_setInterval s e _).trans (sameFlags_setValue _ _ _)).trans
      (sameFlags_setValue _ _ _)).trans (sameFlags_correctHead _)
  have hlinks := (s.prepared_links e value).trans (correctHead_links _)
  have hcorrect : Owns (s.prepared e value).correctHead q f :=
    h.same hlinks.next hlinks.eventQueue hprep.eventFreelist
  obtain ⟨t, pp, q', hloop, hperm, howns, hflags⟩ := hcorrect.insert heq hef
  rw [timerSettime_eq hset hloop howns.queue.check] at hrun
  obtain ⟨u, hu, rfl⟩ := Option.map_eq_some_iff.mp hrun
  have hend : Owns u q' f ∧ SameFlags (t.linked e pp) u := by
    split_ifs at hu
    · obtain ⟨hnext, hqueue, hsame⟩ := reissue_same hu
      exact ⟨howns.same hnext hqueue hsame.eventFreelist, hsame⟩
    · cases hu
      exact ⟨howns, SameFlags.refl _⟩
  have hall := (hprep.trans hflags).trans hend.2
  refine ⟨q', hperm, hend.1.same (next_setCancelled u e false) rfl rfl, ?_⟩
  exact (hall.but e).setEvent rfl (hall.deleted e)

/-- The handler takes the first event off the queue. -/
theorem Owns.pop (h : Owns s q f) (hrun : s.alarmPop = some (s', e)) :
    ∃ q', q = e :: q' ∧ Owns s' q' f ∧ SameFlags s s' := by
  unfold alarmPop at hrun
  cases q with
  | nil =>
    rw [show s.eventQueue = none from h.queue] at hrun
    cases hrun
  | cons x q' =>
    rw [h.queue.1] at hrun
    cases hrun
    have hx : e ∉ q' := (List.nodup_cons.mp h.queue.nodup).1
    have hxf : e ∉ f := fun hf => h.disjoint List.mem_cons_self hf
    refine ⟨q', rfl, ⟨?_, ?_, ?_⟩, ?_⟩
    · show Linked (Timers.setNext _ e none).next (s.next e) q'
      rw [next_setNext]
      exact Linked.update_of_notMem h.queue.2 hx none
    · show Linked (Timers.setNext _ e none).next s.eventFreelist f
      rw [next_setNext]
      exact h.free.update_of_notMem hxf none
    · exact fun p hp hpf => h.disjoint (List.mem_cons_of_mem _ hp) hpf
    · have hset := sameFlags_setNext { s with eventQueue := s.next e } e none
      exact ⟨hset.eventFreelist, hset.cancelled, hset.deleted⟩

/-- An event the handler puts back on the queue. -/
def recurs (s : Timers n) (e : Fin n) : Bool :=
  !(s.event e).cancelled && (s.event e).itInterval.timerisset

theorem Owns.requeue (h : Owns s q f) (hidle : s.recurs e = true → e ∉ q ∧ e ∉ f)
    (hrun : s.alarmRequeue e = some s') :
    ∃ q', (if s.recurs e then q'.Perm (e :: q) else q' = q) ∧ Owns s' q' f ∧ SameFlags s s' := by
  unfold alarmRequeue at hrun
  unfold recurs at hidle ⊢
  cases hc : (s.event e).cancelled with
  | true =>
    rw [hc] at hrun
    cases hrun
    exact ⟨q, by simp, h, SameFlags.refl _⟩
  | false =>
    cases hi : (s.event e).itInterval.timerisset with
    | false =>
      rw [hc, hi] at hrun
      cases hrun
      exact ⟨q, by simp, h, SameFlags.refl _⟩
    | true =>
      rw [hc, hi] at hrun
      obtain ⟨heq, hef⟩ := hidle (by rw [hc, hi]; rfl)
      have hprep := (sameFlags_setValue s e (s.event e).itInterval).trans (sameFlags_setValue _ e
        (timerroundup ((s.setValue e (s.event e).itInterval).value e) s.gGranularity))
      have hready := h.same ((next_setValue _ e _).trans (next_setValue s e _)) rfl
        hprep.eventFreelist
      obtain ⟨t, pp, q', hloop, hperm, howns, hflags⟩ := hready.insert heq hef
      obtain ⟨r, hr, rfl⟩ := Option.map_eq_some_iff.mp hrun
      cases hloop.symm.trans hr
      exact ⟨q', by simpa using hperm, howns, hprep.trans hflags⟩

/-- `timer_create` takes the first event off the free list. -/
theorem Owns.create (h : Owns s q f) {clockId : ℤ} {evp : Option Sigevent}
    (hrun : timerCreate s clockId evp = some (s', e)) :
    ∃ f', f = e :: f' ∧ Owns s' q f' ∧ FlagsBut e false false s s' := by
  unfold timerCreate at hrun
  split_ifs at hrun
  cases f with
  | nil =>
    rw [show s.eventFreelist = none from h.free] at hrun
    cases hrun
  | cons x f' =>
    rw [h.free.1] at hrun
    obtain ⟨-, hrun⟩ := Option.ite_none_right_eq_some.mp hrun
    cases hrun
    have he : e ∉ f' := (List.nodup_cons.mp h.free.nodup).1
    have heq : e ∉ q := fun hq => h.disjoint hq List.mem_cons_self
    have hnext : ((s.setCancelled e false).setDeleted e false).next = s.next := by
      rw [setDeleted, next_setEvent]
      exact (Function.update_eq_self ..).trans (next_setCancelled s e false)
    refine ⟨f', rfl, ⟨?_, ?_, ?_⟩, ?_⟩
    · show Linked (Timers.setNext _ e none).next s.eventQueue q
      rw [next_setNext]
      show Linked (Function.update (((s.setCancelled e false).setDeleted e false).next) e none) _ _
      rw [hnext]
      exact h.queue.update_of_notMem heq none
    · show Linked (Timers.setNext _ e none).next (((s.setCancelled e false).setDeleted e false).next e) f'
      rw [next_setNext]
      show Linked (Function.update (((s.setCancelled e false).setDeleted e false).next) e none) _ _
      rw [hnext]
      exact Linked.update_of_notMem h.free.2 he none
    · exact fun p hp hpf => h.disjoint hp (List.mem_cons_of_mem _ hpf)
    · have hset : FlagsBut e false false s ((s.setCancelled e false).setDeleted e false) := by
        have hc : FlagsBut e false (s.event e).deleted s (s.setCancelled e false) :=
          ((SameFlags.refl s).but e).setEvent rfl rfl
        exact hc.setEvent hc.cancelled_self rfl
      have htaken := hset.setNext none
      exact ⟨htaken.cancelled_self, htaken.deleted_self, htaken.cancelled, htaken.deleted⟩

/-- Whether an event is met within `k` events from `o` on. -/
def meets (s : Timers n) (e : Fin n) : ℕ → Option (Fin n) → Bool
  | _, none => false
  | 0, some _ => false
  | k + 1, some p => p == e || s.meets e k (s.next p)

/-- Whether an event is on the queue. -/
def onQueue (s : Timers n) (e : Fin n) : Bool := s.meets e n s.eventQueue

theorem meets_iff : ∀ {l : List (Fin n)} {k : ℕ} {o : Option (Fin n)}, Linked s.next o l →
    l.length ≤ k → (s.meets e k o = true ↔ e ∈ l)
  | [], k, o, h, _ => by
    rw [show o = none from h]
    cases k <;> simp [meets]
  | p :: l, k + 1, o, h, hk => by
    rw [h.1, meets, Bool.or_eq_true, beq_iff_eq, meets_iff h.2 (Nat.le_of_succ_le_succ hk),
      List.mem_cons, eq_comm]

theorem Owns.onQueue_iff (h : Owns s q f) : s.onQueue e = true ↔ e ∈ q :=
  meets_iff h.queue h.queue.length_le

/-! ### The pool and the timers made of it -/

/-- The free events are those no timer is made of, an event on the queue has not
been cancelled, and the flags tell a deleted timer. -/
structure Pool (s : Timers n) (live : Fin n → Bool) (q f : List (Fin n)) : Prop where
  owns : Owns s q f
  free : ∀ e, e ∈ f ↔ live e = false
  queued : ∀ e ∈ q, (s.event e).cancelled = false
  undeleted : ∀ e, live e = true → (s.event e).deleted = false

variable {live : Fin n → Bool} {q' : List (Fin n)}

theorem Pool.not_free (h : Pool s live q f) (hl : live e = true) : e ∉ f := by
  rw [h.free, hl]
  exact Bool.noConfusion

/-- A queue of events that have not been cancelled. -/
theorem Pool.same (h : Pool s live q f) (howns : Owns s' q' f) (hflags : SameFlags s s')
    (hq : ∀ p ∈ q', (s.event p).cancelled = false) : Pool s' live q' f where
  owns := howns
  free := h.free
  queued p hp := by rw [hflags.cancelled]; exact hq p hp
  undeleted p := by rw [hflags.deleted]; exact h.undeleted p

/-- A queue with an event that has been set. -/
theorem Pool.set (h : Pool s live q f) (howns : Owns s' q' f) (hq : ∀ p ∈ q', p ∈ q ∨ p = e)
    (hflags : FlagsBut e false (s.event e).deleted s s') : Pool s' live q' f := by
  refine ⟨howns, h.free, fun p hp => ?_, fun p => ?_⟩
  all_goals by_cases hpe : p = e
  · rw [hpe]
    exact hflags.cancelled_self
  · rw [hflags.cancelled p hpe]
    exact h.queued p ((hq p hp).resolve_right hpe)
  · rw [hpe, hflags.deleted_self]
    exact h.undeleted e
  · rw [hflags.deleted p hpe]
    exact h.undeleted p

theorem Pool.create (h : Pool s live q f) {clockId : ℤ} {evp : Option Sigevent}
    (hrun : timerCreate s clockId evp = some (s', e)) :
    ∃ f', f = e :: f' ∧ Pool s' (Function.update live e true) q f' ∧ FlagsBut e false false s s' := by
  obtain ⟨f', rfl, howns, hflags⟩ := h.owns.create hrun
  have hf : e ∉ f' := (List.nodup_cons.mp h.owns.free.nodup).1
  have hq : e ∉ q := fun hq => h.owns.disjoint hq List.mem_cons_self
  refine ⟨f', rfl, ⟨howns, fun p => ?_, fun p hp => ?_, fun p => ?_⟩, hflags⟩
  all_goals by_cases hpe : p = e
  · simp [hpe, hf]
  · rw [Function.update_of_ne hpe, ← h.free, List.mem_cons, or_iff_right hpe]
  · exact absurd (hpe ▸ hp) hq
  · rw [hflags.cancelled p hpe]
    exact h.queued p hp
  · intro _
    rw [hpe]
    exact hflags.deleted_self
  · rw [Function.update_of_ne hpe, hflags.deleted p hpe]
    exact h.undeleted p

theorem Pool.cancel (h : Pool s live q f) (hrun : timerCancel s e = some s') :
    Pool s' live (q.erase e) f ∧ FlagsBut e true (s.event e).deleted s s' := by
  obtain ⟨howns, hflags, -⟩ := h.owns.cancel (h.queued e) hrun
  refine ⟨⟨howns, h.free, fun p hp => ?_, fun p => ?_⟩, hflags⟩
  · have hpe : p ≠ e := fun hpe => h.owns.queue.nodup.not_mem_erase (hpe ▸ hp)
    rw [hflags.cancelled p hpe]
    exact h.queued p (List.mem_of_mem_erase hp)
  · by_cases hpe : p = e
    · rw [hpe, hflags.deleted_self]
      exact h.undeleted e
    · rw [hflags.deleted p hpe]
      exact h.undeleted p

theorem Pool.delete (h : Pool s live q f) (hl : live e = true) {r : Timers n × ℤ} (hrun : timerDelete s e = some r) :
    Pool r.1 (Function.update live e false) (q.erase e) (e :: f) ∧ FlagsBut e true true s r.1 := by
  obtain ⟨howns, hflags⟩ := h.owns.delete (h.queued e) (h.undeleted e hl) (h.not_free hl) hrun
  have hq : e ∉ q.erase e := h.owns.queue.nodup.not_mem_erase
  refine ⟨⟨howns, fun p => ?_, fun p hp => ?_, fun p => ?_⟩, hflags⟩
  all_goals by_cases hpe : p = e
  · simp [hpe]
  · rw [Function.update_of_ne hpe, ← h.free, List.mem_cons, or_iff_right hpe]
  · exact absurd (hpe ▸ hp) hq
  · rw [hflags.cancelled p hpe]
    exact h.queued p (List.mem_of_mem_erase hp)
  · simp [hpe]
  · rw [Function.update_of_ne hpe, hflags.deleted p hpe]
    exact h.undeleted p

theorem Pool.pop (h : Pool s live q f) (hrun : s.alarmPop = some (s', e)) :
    ∃ q', q = e :: q' ∧ Pool s' live q' f ∧ SameFlags s s' := by
  obtain ⟨q', rfl, howns, hflags⟩ := h.owns.pop hrun
  exact ⟨q', rfl, h.same howns hflags fun p hp => h.queued p (List.mem_cons_of_mem _ hp), hflags⟩

end Timers

/-! ### The system -/

namespace Sys

/-- Exactly one of three. -/
def ExactlyOne (a b c : Prop) : Prop := (a ∧ ¬b ∧ ¬c) ∨ (¬a ∧ b ∧ ¬c) ∨ (¬a ∧ ¬b ∧ c)

/-- The queue `q` and the free list `f` end and have no event twice, and each
event is on the queue, on the free list, or a timer that has been created and
is idle. -/
structure Owned (s : Sys n R) (q f : List (Fin n)) : Prop where
  queue : s.timers.Queue q
  free : Linked s.timers.next s.timers.eventFreelist f
  nodup : q.Nodup ∧ f.Nodup
  one : ∀ e, ExactlyOne (e ∈ q) (e ∈ f) (s.live e = true ∧ e ∉ q)

/-- The timer `e` has been set since it was created. -/
def Armed (es : List (Action n R)) (e : Fin n) : Prop :=
  ∃ pre value post, es = pre ++ .api (.settime e value) :: post ∧ sets value = true ∧
    ∀ clockId evp, .api (.create clockId evp e) ∉ post

/-- What the timer functions leave to their caller. A timer is set only while
it is not on the queue; and the event a callback returns from, if its fields
say that it recurs, is that of a timer that has been set since it was created
and is not on the queue already. -/
def sound (s : Sys n R) : Action n R → Bool
  | .api (.settime e value) => !(sets value && s.timers.onQueue e)
  | .ret =>
    match s.handler with
    | .callback e => !s.timers.recurs e || (s.armed e && !s.timers.onQueue e)
    | _ => true
  | _ => true

/-- The invariant: the free events are those no timer is made of, a timer on
the queue is armed and not cancelled, and the flags tell a deleted timer. -/
structure Inv (es : List (Action n R)) (s : Sys n R) (q f : List (Fin n)) : Prop where
  owns : Owns s.timers q f
  free : ∀ e, e ∈ f ↔ s.live e = false
  queued : ∀ e ∈ q, s.armed e = true ∧ (s.timers.event e).cancelled = false
  live : ∀ e, s.armed e = true → s.live e = true
  undeleted : ∀ e, s.live e = true → (s.timers.event e).deleted = false
  armed : ∀ e, s.armed e = true → Armed es e

theorem Inv.owned {es : List (Action n R)} {s : Sys n R} {q f : List (Fin n)} (h : Inv es s q f) :
    Owned s q f := by
  refine ⟨h.owns.queue, h.owns.free, ⟨h.owns.queue.nodup, h.owns.free.nodup⟩, fun e => ?_⟩
  by_cases hq : e ∈ q
  · exact Or.inl ⟨hq, h.owns.disjoint hq, fun hi => hi.2 hq⟩
  · cases hl : s.live e with
    | true =>
      have hf : e ∉ f := fun hf => by
        rw [h.free, hl] at hf
        cases hf
      exact Or.inr (Or.inr ⟨hq, hf, rfl, hq⟩)
    | false => exact Or.inr (Or.inl ⟨hq, (h.free e).mpr hl, fun hi => by cases hi.1⟩)

theorem Armed.snoc {es : List (Action n R)} {e : Fin n} (h : Armed es e) {a : Action n R}
    (ha : ∀ clockId evp, a ≠ .api (.create clockId evp e)) : Armed (es ++ [a]) e := by
  obtain ⟨pre, value, post, rfl, hset, hpost⟩ := h
  refine ⟨pre, value, post ++ [a], by rw [List.append_assoc]; rfl, hset, fun clockId evp hm => ?_⟩
  rcases List.mem_append.mp hm with hm | hm
  · exact hpost clockId evp hm
  · exact ha clockId evp (List.mem_singleton.mp hm).symm

theorem not_armed_create (es : List (Action n R)) (clockId : ℤ) (evp : Option Sigevent)
    (e : Fin n) : ¬ Armed (es ++ [.api (.create clockId evp e)]) e := by
  rintro ⟨pre, value, post, hes, -, hpost⟩
  rcases Run.eq_of_snoc hes with ⟨-, hcall, -⟩ | ⟨post', rfl, -⟩
  · cases hcall
  · exact hpost clockId evp (List.mem_append_right _ (List.mem_singleton_self _))

theorem Armed.of_snoc {es : List (Action n R)} {a : Action n R} {e : Fin n}
    (h : Armed (es ++ [a]) e) (ha : ∀ value, a ≠ .api (.settime e value)) : Armed es e := by
  obtain ⟨pre, value, post, hes, hset, hpost⟩ := h
  rcases Run.eq_of_snoc hes with ⟨-, hcall, -⟩ | ⟨post', rfl, rfl⟩
  · exact absurd hcall.symm (ha value)
  · exact ⟨pre, value, post', rfl, hset, fun clockId evp hm =>
      hpost clockId evp (List.mem_append_left _ hm)⟩

section Steps

variable {es : List (Action n R)} {s s' : Sys n R} {q f : List (Fin n)} {e : Fin n}

theorem Inv.pool (h : Inv es s q f) : Pool s.timers s.live q f :=
  ⟨h.owns, h.free, fun e he => (h.queued e he).2, h.undeleted⟩

/-- The invariant from that of the pool. -/
theorem inv_of_pool (h : Pool s.timers s.live q f) (hq : ∀ e ∈ q, s.armed e = true)
    (hlive : ∀ e, s.armed e = true → s.live e = true) (harmed : ∀ e, s.armed e = true → Armed es e) : Inv es s q f :=
  ⟨h.owns, h.free, fun e he => ⟨hq e he, h.queued e he⟩, hlive, h.undeleted, harmed⟩

/-- Steps that leave the program's view and the flags alone. -/
theorem Inv.same (h : Inv es s q f) {a : Action n R}
    (ha : ∀ clockId evp e, a ≠ .api (.create clockId evp e)) (howns : Owns s'.timers q f)
    (hflags : SameFlags s.timers s'.timers) (hlive : s'.live = s.live) (harmed : s'.armed = s.armed) :
    Inv (es ++ [a]) s' q f where
  owns := howns
  free e := by rw [hlive]; exact h.free e
  queued e he := by rw [harmed, hflags.cancelled]; exact h.queued e he
  live e := by rw [harmed, hlive]; exact h.live e
  undeleted e := by rw [hlive, hflags.deleted]; exact h.undeleted e
  armed e := by
    rw [harmed]
    exact fun he => (h.armed e he).snoc fun clockId evp => ha clockId evp e

theorem Inv.create (h : Inv es s q f) {clockId : ℤ} {evp : Option Sigevent}
    (hrun : s.call (.create clockId evp e) = some s') :
    ∃ f', Inv (es ++ [.api (.create clockId evp e)]) s' q f' := by
  rw [call] at hrun
  cases hcreate : timerCreate s.timers clockId evp with
  | none =>
    simp only [hcreate] at hrun
    cases hrun
  | some r =>
    obtain ⟨t, e'⟩ := r
    simp only [hcreate] at hrun
    split_ifs at hrun with he
    cases hrun
    subst he
    obtain ⟨f', rfl, hpool, -⟩ := h.pool.create hcreate
    refine ⟨f', inv_of_pool hpool (fun p hp => ?_) (fun p => ?_) fun p => ?_⟩
    all_goals by_cases hpe : p = e'
    · exact absurd List.mem_cons_self (h.owns.disjoint (hpe ▸ hp))
    · simp only [Function.update_of_ne hpe]
      exact (h.queued p hp).1
    · simp [hpe]
    · simp only [Function.update_of_ne hpe]
      exact h.live p
    · simp [hpe]
    · simp only [Function.update_of_ne hpe]
      refine fun ha => (h.armed p ha).snoc fun _ _ hcall => ?_
      cases hcall
      exact hpe rfl

/-- What `timer_cancel` leaves, also where `timer_settime` calls it. -/
theorem Inv.cancelled (h : Inv es s q f) {a : Action n R}
    (ha : ∀ clockId evp e, a ≠ .api (.create clockId evp e)) {t t' : Timers n} (ht : Owns t q f)
    (hsame : SameFlags s.timers t) (hrun : timerCancel t e = some t') :
    Inv (es ++ [a]) { s with timers := t' } (q.erase e) f := by
  obtain ⟨hpool, -⟩ := (h.pool.same ht hsame h.pool.queued).cancel hrun
  refine inv_of_pool hpool (fun p hp => (h.queued p (List.mem_of_mem_erase hp)).1) h.live fun p hp => ?_
  exact (h.armed p hp).snoc fun clockId evp => ha clockId evp p

theorem Inv.delete (h : Inv es s q f) (hrun : s.call (.delete e) = some s') :
    Inv (es ++ [.api (.delete e)]) s' (q.erase e) (e :: f) := by
  rw [call] at hrun
  split_ifs at hrun with hl
  obtain ⟨r, hdelete, rfl⟩ := Option.map_eq_some_iff.mp hrun
  obtain ⟨hpool, -⟩ := h.pool.delete hl hdelete
  have hq : e ∉ q.erase e := h.owns.queue.nodup.not_mem_erase
  refine inv_of_pool hpool (fun p hp => ?_) (fun p => ?_) fun p => ?_
  all_goals by_cases hpe : p = e
  · exact absurd (hpe ▸ hp) hq
  · simp only [Function.update_of_ne hpe]
    exact (h.queued p (List.mem_of_mem_erase hp)).1
  · simp [hpe]
  · simp only [Function.update_of_ne hpe]
    exact h.live p
  · simp [hpe]
  · simp only [Function.update_of_ne hpe]
    exact fun ha => (h.armed p ha).snoc fun _ _ hcall => by cases hcall

theorem Inv.settime (h : Inv es s q f) {value : Itimerspec}
    (hsound : s.sound (.api (.settime e value)) = true)
    (hrun : s.call (.settime e value) = some s') :
    ∃ q', Inv (es ++ [.api (.settime e value)]) s' q' f := by
  rw [call] at hrun
  split_ifs at hrun with hl
  obtain ⟨t, hset, rfl⟩ := Option.map_eq_some_iff.mp hrun
  cases hsets : sets value with
  | false =>
    -- the timer is disarmed
    have hprep := (sameFlags_setInterval s.timers e value.itInterval.toTimeval).trans
      (sameFlags_setValue _ e value.itValue.toTimeval)
    have hready := h.owns.same ((next_setValue _ e _).trans (next_setInterval s.timers e _)) rfl
      hprep.eventFreelist
    have hcancel : timerCancel ((s.timers.setInterval e value.itInterval.toTimeval).setValue e
        value.itValue.toTimeval) e = some t := by
      rw [← hset]
      unfold timerSettime
      have hv : ((s.timers.setInterval e value.itInterval.toTimeval).setValue e
        value.itValue.toTimeval).value e = value.itValue.toTimeval := setValue_self ..
      simp only [hv]
      rw [if_pos (show value.itValue.toTimeval.timerisset = false from hsets)]
    have hinv := h.cancelled (a := .api (.settime e value)) (fun _ _ _ hcall => by cases hcall)
      hready hprep hcancel
    refine ⟨q.erase e, ?_⟩
    rw [Bool.or_false, Function.update_eq_self]
    exact hinv
  | true =>
    have hq : e ∉ q := by
      rw [← h.owns.onQueue_iff]
      intro hon
      simp only [sound, hsets, hon] at hsound
      cases hsound
    obtain ⟨q', hperm, howns, hflags⟩ := h.owns.settime hq (h.pool.not_free hl) hsets hset
    have hmem : ∀ p ∈ q', p ∈ q ∨ p = e := fun p hp => (List.mem_cons.mp (hperm.mem_iff.mp hp)).symm
    rw [Bool.or_true]
    refine ⟨q', inv_of_pool (h.pool.set howns hmem hflags) (fun p hp => ?_) (fun p => ?_) fun p => ?_⟩
    all_goals by_cases hpe : p = e
    · rw [hpe]
      exact Function.update_self ..
    · simp only [Function.update_of_ne hpe]
      exact (h.queued p ((hmem p hp).resolve_right hpe)).1
    · exact fun _ => hpe ▸ hl
    · simp only [Function.update_of_ne hpe]
      exact h.live p
    · intro _
      rw [hpe]
      exact ⟨es, value, [], rfl, hsets, by simp⟩
    · simp only [Function.update_of_ne hpe]
      exact fun ha => (h.armed p ha).snoc fun _ _ hcall => by cases hcall

theorem Inv.call (h : Inv es s q f) {c : Api n R} (hsound : s.sound (.api c) = true)
    (hrun : s.call c = some s') : ∃ q' f', Inv (es ++ [.api c]) s' q' f' := by
  cases c with
  | create clockId evp e =>
    obtain ⟨f', hinv⟩ := h.create hrun
    exact ⟨q, f', hinv⟩
  | connect e routine arg =>
    rw [Sys.call] at hrun
    obtain ⟨-, hrun⟩ := Option.ite_none_right_eq_some.mp hrun
    cases hrun
    refine ⟨q, f, h.same ?_ h.owns (SameFlags.refl _) rfl rfl⟩
    intro _ _ _ hcall
    cases hcall
  | settime e value =>
    obtain ⟨q', hinv⟩ := h.settime hsound hrun
    exact ⟨q', f, hinv⟩
  | cancel e =>
    rw [Sys.call] at hrun
    split_ifs at hrun with hl
    obtain ⟨t, hcancel, rfl⟩ := Option.map_eq_some_iff.mp hrun
    refine ⟨q.erase e, f, h.cancelled ?_ h.owns (SameFlags.refl _) hcancel⟩
    intro _ _ _ hcall
    cases hcall
  | delete e => exact ⟨q.erase e, e :: f, h.delete hrun⟩

theorem Inv.ret (h : Inv es s q f) (hhandler : s.handler = .callback e)
    (hsound : s.sound (.ret : Action n R) = true) (hrun : s.ret e = some s') :
    ∃ q', Inv (es ++ [.ret]) s' q' f := by
  have hidle : s.timers.recurs e = true → s.armed e = true ∧ e ∉ q := by
    intro hrecurs
    simp only [sound, hhandler, hrecurs, Bool.not_true, Bool.false_or, Bool.and_eq_true,
      Bool.not_eq_true'] at hsound
    refine ⟨hsound.1, fun he => ?_⟩
    rw [h.owns.onQueue_iff.mpr he] at hsound
    cases hsound.2
  unfold Sys.ret at hrun
  cases hrequeue : s.timers.alarmRequeue e with
  | none =>
    rw [hrequeue] at hrun
    cases hrun
  | some t =>
    rw [hrequeue] at hrun
    obtain ⟨q', hq', howns, hflags⟩ := h.owns.requeue
      (fun hr => ⟨(hidle hr).2, h.pool.not_free (h.live e (hidle hr).1)⟩) hrequeue
    have hqueued : ∀ p ∈ q', s.armed p = true ∧ (s.timers.event p).cancelled = false := by
      intro p hp
      by_cases hrecurs : s.timers.recurs e = true
      · rw [if_pos hrecurs] at hq'
        rcases List.mem_cons.mp (hq'.mem_iff.mp hp) with rfl | hp
        · have hr := hrecurs
          unfold recurs at hr
          rw [Bool.and_eq_true, Bool.not_eq_true'] at hr
          exact ⟨(hidle hrecurs).1, hr.1⟩
        · exact h.queued p hp
      · rw [if_neg hrecurs] at hq'
        rw [hq'] at hp
        exact h.queued p hp
    -- the loop goes on, or the timer is issued for the head
    have hinv : ∀ t' : Timers n, Owns t' q' f → SameFlags t t' → ∀ k : Handler n,
        Inv (es ++ [.ret]) { s with timers := t', handler := k } q' f := by
      intro t' ht' hsame k
      have hpool := h.pool.same ht' (hflags.trans hsame) fun p hp => (hqueued p hp).2
      refine inv_of_pool hpool (fun p hp => (hqueued p hp).1) h.live fun p hp => ?_
      exact (h.armed p hp).snoc fun _ _ hcall => by cases hcall
    simp only [howns.queue.check, Bool.true_eq_false, if_false] at hrun
    split_ifs at hrun with hagain
    · cases hrun
      exact ⟨q', hinv t howns (SameFlags.refl _) _⟩
    · cases hrun
      obtain ⟨hnext, hqueue, hsame⟩ := t.alarmReissue_same
      exact ⟨q', hinv _ (howns.same hnext hqueue hsame.eventFreelist) hsame _⟩

variable [DecidableEq R]

/-- The event whose callback is called is the first of the queue. -/
theorem Inv.fire (h : Inv es s q f) {routine : R} {arg : ℤ}
    (hrun : s.step (.fire e routine arg) = some s') :
    s.armed e = true ∧ ∃ q', Inv (es ++ [.fire e routine arg]) s' q' f := by
  rw [step] at hrun
  split_ifs at hrun with htop
  cases hpop : s.timers.alarmPop with
  | none =>
    simp only [hpop] at hrun
    cases hrun
  | some r =>
    obtain ⟨t, e'⟩ := r
    simp only [hpop] at hrun
    split_ifs at hrun with he
    cases hrun
    obtain ⟨rfl, -⟩ := he
    obtain ⟨q', rfl, hpool, -⟩ := h.pool.pop hpop
    refine ⟨(h.queued e' List.mem_cons_self).1, q', inv_of_pool hpool (fun p hp => ?_) h.live fun p hp => ?_⟩
    · exact (h.queued p (List.mem_cons_of_mem _ hp)).1
    · exact (h.armed p hp).snoc fun _ _ hcall => by cases hcall

theorem Inv.step (h : Inv es s q f) {a : Action n R} (hsound : s.sound a = true)
    (hrun : s.step a = some s') : ∃ q' f', Inv (es ++ [a]) s' q' f' := by
  cases a with
  | api c =>
    rw [Sys.step] at hrun
    split_ifs at hrun
    exact h.call hsound hrun
  | elapse v =>
    rw [Sys.step] at hrun
    split_ifs at hrun
    cases hrun
    refine ⟨q, f, h.same ?_ (h.owns.same rfl rfl rfl) (sameFlags_setitimer _ _) rfl rfl⟩
    intro _ _ _ hcall
    cases hcall
  | signal =>
    rw [Sys.step] at hrun
    split_ifs at hrun
    cases hrun
    refine ⟨q, f, h.same ?_ h.owns (SameFlags.refl _) rfl rfl⟩
    intro _ _ _ hcall
    cases hcall
  | fire e routine arg =>
    obtain ⟨-, q', hinv⟩ := h.fire hrun
    exact ⟨q', f, hinv⟩
  | ret =>
    rw [Sys.step] at hrun
    cases hhandler : s.handler with
    | callback e =>
      rw [hhandler] at hrun
      obtain ⟨q', hinv⟩ := h.ret hhandler hsound hrun
      exact ⟨q', f, hinv⟩
    | idle =>
      rw [hhandler] at hrun
      cases hrun
    | top =>
      rw [hhandler] at hrun
      cases hrun

end Steps

/-- The free list at the start, from the `k`-th structure on. -/
theorem linked_initEventQueue (n g : ℕ) : ∀ (m k : ℕ), k + m = n →
    Linked (initEventQueue n g).next (if h : k < n then some ⟨k, h⟩ else none)
      ((List.finRange n).drop k)
  | 0, k, hk => by
    have hlen : (List.finRange n).length ≤ k := by
      rw [List.length_finRange]
      omega
    rw [List.drop_eq_nil_of_le hlen, dif_neg (by omega)]
    rfl
  | m + 1, k, hk => by
    have hlt : k < n := by omega
    have hlen : k < (List.finRange n).length := by
      rw [List.length_finRange]
      exact hlt
    rw [List.drop_eq_getElem_cons hlen, dif_pos hlt, List.getElem_finRange]
    exact ⟨rfl, linked_initEventQueue n g m (k + 1) (by omega)⟩

theorem init_inv (n g : ℕ) : Inv [] (init n g R) [] (List.finRange n) := by
  refine ⟨⟨rfl, ?_, List.disjoint_nil_left _⟩, fun e => ?_, by simp, ?_, ?_, ?_⟩
  · exact linked_initEventQueue n g n 0 (by omega)
  · exact ⟨fun _ => rfl, fun _ => List.mem_finRange e⟩
  all_goals
    intro e he
    cases he

variable [DecidableEq R]

/-- The steps that meet `sound`. -/
def soundStep (s : Sys n R) (a : Action n R) : Option (Sys n R) :=
  if s.sound a then s.step a else none

theorem run_inv {g : ℕ} {es : List (Action n R)} {s : Sys n R}
    (h : Run.Trace (fun s a s' => s.soundStep a = some s') (init n g R) es s) :
    ∃ q f, Inv es s q f := by
  refine h.inv (I := fun es s => ∃ q f, Inv es s q f) ⟨_, _, init_inv n g⟩ ?_
  rintro es s a s' ⟨q, f, hinv⟩ hstep
  obtain ⟨hsound, hstep⟩ := Option.ite_none_right_eq_some.mp hstep
  exact hinv.step hsound hstep

/-- **Event ownership**: in every run that meets `sound`, each event structure is
on the queue, on the free list or with the program, and only one of these, with
no event twice on a list; and the callback of a timer is called only if the
timer has been set since it was created. -/
theorem event_ownership {g : ℕ} {es : List (Action n R)} {s : Sys n R}
    (h : Run.Trace (fun s a s' => s.soundStep a = some s') (init n g R) es s) :
    (∃ q f, Owned s q f) ∧
      ∀ pre e routine arg post, es = pre ++ .fire e routine arg :: post → Armed pre e := by
  constructor
  · obtain ⟨q, f, hinv⟩ := run_inv h
    exact ⟨q, f, hinv.owned⟩
  · intro pre e routine arg post hes
    obtain ⟨s₁, s₂, hpre, hfire, -⟩ := h.split hes
    obtain ⟨q, f, hinv⟩ := run_inv hpre
    obtain ⟨-, hfire⟩ := Option.ite_none_right_eq_some.mp hfire
    exact hinv.armed e (hinv.fire hfire).1

/-- A timer is created, set to a second, and fires; its callback takes 7. -/
def firstAlarm (interval : ℤ) : List (Action 1 Unit) :=
  [.api (.create clockRealtime none 0), .api (.connect 0 (some ()) 7),
    .api (.settime 0 ⟨⟨interval, 0⟩, ⟨1, 0⟩⟩), .elapse Timeval.zero, .signal, .fire 0 () 7]

theorem event_ownership_oneshot :
    ∃ s : Sys 1 Unit,
      Run.Trace (fun s a s' => s.soundStep a = some s') (init 1 1 Unit) (firstAlarm 0 ++ [.ret]) s ∧
      (∃ q f, Owned s q f) ∧
        ∀ pre e routine arg post, firstAlarm 0 ++ [.ret] = pre ++ .fire e routine arg :: post →
          Armed pre e := by
  obtain ⟨s, hs⟩ := Run.exists_trace (f := soundStep) (s := init 1 1 Unit)
    (show (Run.exec soundStep (firstAlarm 0 ++ [.ret]) (init 1 1 Unit)).isSome = true by decide)
  exact ⟨s, hs, event_ownership hs⟩

/-- A callback deletes its own timer, which recurs, and creates one. It gets the
same structure; the handler finds it not cancelled and with the old interval,
and puts it on the queue. The new timer fires without having been set. -/
theorem recreated_timer_fires :
    ¬ ∀ (es : List (Action 1 Unit)) (s : Sys 1 Unit), Runs 1 es s →
      (∃ q f, Owned s q f) ∧
        ∀ pre e routine arg post, es = pre ++ .fire e routine arg :: post → Armed pre e := by
  intro h
  obtain ⟨s, hs⟩ := Run.exists_trace (f := step) (s := init 1 1 Unit)
    (show (Run.exec step (firstAlarm 1 ++ [.api (.delete 0)] ++ [.api (.create clockRealtime none 0)] ++
      [.ret] ++ [.elapse Timeval.zero] ++ [.signal] ++ [.fire 0 () 7]) (init 1 1 Unit)).isSome = true
      by decide)
  have harmed := (h _ s hs).2 _ 0 () 7 [] rfl
  have hcreate := ((harmed.of_snoc (by simp)).of_snoc (by simp)).of_snoc (by simp)
  exact not_armed_create _ _ _ _ hcreate

end Sys

end Timer
end Router
