/-
# timer_settime keeps the deadlines

Setting a timer first makes the head's value what remains on the interval
timer, so that the values are the delta list of the queue from now on
(`correctHead_synced`). The loop that follows is the insertion into a delta
list (`settimeLoop_spec`).
-/
import RouterFirmware.Timer.Deadlines

namespace Router
namespace Timer

open Timeval

variable {n : ℕ}

namespace Timers

/-- The states differ in the values of the events only. -/
structure SameLinks (s s' : Timers n) : Prop where
  next : s'.next = s.next
  eventQueue : s'.eventQueue = s.eventQueue
  itimer : s'.itimer = s.itimer
  gGranularity : s'.gGranularity = s.gGranularity

theorem SameLinks.trans {s s' s'' : Timers n} (h : SameLinks s s') (h' : SameLinks s' s'') :
    SameLinks s s'' :=
  ⟨h'.next.trans h.next, h'.eventQueue.trans h.eventQueue, h'.itimer.trans h.itimer,
    h'.gGranularity.trans h.gGranularity⟩

theorem sameLinks_setValue (s : Timers n) (e : Fin n) (v : Timeval) : SameLinks s (s.setValue e v) :=
  ⟨next_setValue s e v, rfl, rfl, rfl⟩

theorem SameLinks.load {s s' : Timers n} (h : SameLinks s s') (pp : Option (Fin n)) :
    s'.load pp = s.load pp := by
  cases pp with
  | none => exact h.eventQueue
  | some p => exact congrFun h.next p

theorem SameLinks.queue {s s' : Timers n} (h : SameLinks s s') {l : List (Fin n)} (hq : s.Queue l) :
    s'.Queue l := by
  unfold Queue
  rw [h.next, h.eventQueue]
  exact hq

theorem values_congr {s s' : Timers n} {l : List (Fin n)} (h : ∀ q ∈ l, s'.value q = s.value q) :
    s'.values l = s.values l :=
  List.map_congr_left fun q hq => by rw [h q hq]

theorem setValue_of_ne (s : Timers n) {e q : Fin n} (v : Timeval) (h : q ≠ e) :
    (s.setValue e v).value q = s.value q := by
  rw [value_setValue, Function.update_of_ne h]

theorem setValue_self (s : Timers n) (e : Fin n) (v : Timeval) : (s.setValue e v).value e = v := by
  rw [value_setValue, Function.update_self]

/-! ### The loop -/

/-- The loop inserts the event into the delta list from `ppevent` on: behind
`post₁`, whose values stay. -/
theorem settimeLoop_spec {e : Fin n} : ∀ {post : List (Fin n)} {fuel : ℕ} {s : Timers n}
    {pp : Option (Fin n)}, Linked s.next (s.load pp) post → e ∉ post → post.length < fuel →
    ∃ s' post₁ post₂, post = post₁ ++ post₂ ∧
      settimeLoop e fuel s pp = some (s', post₁.getLast?.or pp) ∧ SameLinks s s' ∧
      s'.values (post₁ ++ e :: post₂) =
        Delta.insert timersub timercmpLt e (s.value e) (s.values post) ∧
      (post₁ = [] → s'.value e = s.value e) ∧ (∀ q ∈ post₁, s'.value q = s.value q) ∧
      (∀ q ≠ e, q ∉ post → s'.value q = s.value q)
  | [], fuel + 1, s, pp, h, _, _ => by
    have hload : s.load pp = none := h
    refine ⟨s, [], [], rfl, ?_, ⟨rfl, rfl, rfl, rfl⟩, rfl, fun _ => rfl, fun _ _ => rfl,
      fun _ _ _ => rfl⟩
    rw [settimeLoop, hload]
    rfl
  | q :: post, fuel + 1, s, pp, h, he, hf => by
    have hload : s.load pp = some q := h.1
    have hnd := h.nodup
    have hqe : q ≠ e := fun hqe => he (hqe ▸ List.mem_cons_self)
    have hq : q ∉ post := (List.nodup_cons.mp hnd).1
    have hpost : e ∉ post := fun hm => he (List.mem_cons_of_mem _ hm)
    unfold settimeLoop
    simp only [hload]
    by_cases hlt : timercmpLt (s.value e) (s.value q) = true
    · -- the event goes before `q`
      rw [if_pos hlt]
      have hrest : (s.setValue q (timersub (s.value q) (s.value e))).values post = s.values post :=
        values_congr fun x hx => s.setValue_of_ne _ fun hxq => hq (hxq ▸ hx)
      refine ⟨_, [], q :: post, rfl, rfl, s.sameLinks_setValue _ _, ?_,
        fun _ => s.setValue_of_ne _ hqe.symm, by simp, ?_⟩
      · show (e, _) :: (q, _) :: Timers.values _ post = _
        rw [hrest, setValue_self, setValue_of_ne _ _ hqe.symm]
        show _ = Delta.insert timersub timercmpLt e (s.value e) ((q, s.value q) :: s.values post)
        rw [Delta.insert, if_pos hlt]
      · intro x _ hx
        exact s.setValue_of_ne _ fun hxq => hx (hxq ▸ List.mem_cons_self)
    · -- the event goes on behind `q`
      rw [if_neg hlt]
      have hlinks := s.sameLinks_setValue e (timersub (s.value e) (s.value q))
      have hnext : Linked (s.setValue e (timersub (s.value e) (s.value q))).next
          ((s.setValue e (timersub (s.value e) (s.value q))).load (some q)) post := by
        rw [hlinks.load, hlinks.next]
        exact h.2
      obtain ⟨s', post₁, post₂, rfl, hloop, hlinks', hvalues, -, hfirst, hother⟩ :=
        settimeLoop_spec hnext hpost (Nat.lt_of_succ_lt_succ hf)
      have hsame : (s.setValue e (timersub (s.value e) (s.value q))).values (post₁ ++ post₂) =
          s.values (post₁ ++ post₂) :=
        values_congr fun x hx => s.setValue_of_ne _ fun hxe => hpost (hxe ▸ hx)
      have hvq : s'.value q = s.value q := by rw [hother q hqe hq, setValue_of_ne _ _ hqe]
      refine ⟨s', q :: post₁, post₂, rfl, ?_, hlinks.trans hlinks', ?_, by simp, ?_, ?_⟩
      · rw [hloop, List.getLast?_cons]
        cases post₁.getLast? <;> rfl
      · show (q, s'.value q) :: s'.values (post₁ ++ e :: post₂) =
          Delta.insert timersub timercmpLt e (s.value e) ((q, s.value q) :: s.values (post₁ ++ post₂))
        rw [Delta.insert, if_neg hlt, hvalues, setValue_self, hsame, hvq]
      · intro x hx
        rcases List.mem_cons.mp hx with rfl | hx
        · exact hvq
        · rw [hfirst x hx]
          exact s.setValue_of_ne _ fun hxe => hpost (hxe ▸ List.mem_append_left _ hx)
      · intro x hxe hx
        rw [hother x hxe fun hm => hx (List.mem_cons_of_mem _ hm), setValue_of_ne _ _ hxe]

/-! ### The head -/

/-- The corrected queue is the delta list from now on. -/
theorem correctHead_synced {s : Timers n} {l : List (Fin n)} (hq : s.Queue l)
    (hproper : ∀ q ∈ l, Proper (s.value q)) (hit : Proper s.itimer)
    (hrem : ∀ h ∈ l.head?, s.itimer.us ≤ (s.value h).us) :
    SameLinks s s.correctHead ∧ (∀ q ∉ l, s.correctHead.value q = s.value q) ∧
      (∀ q ∈ l, Proper (s.correctHead.value q)) ∧
      (∀ h ∈ l.head?, s.correctHead.remaining h = (s.correctHead.value h).us) ∧
      s.deltas l = Delta.amounts Timeval.us (s.correctHead.values l) := by
  have hsame : s.correctHead = s → (∀ h ∈ l.head?, s.remaining h = (s.value h).us) →
      SameLinks s s.correctHead ∧ (∀ q ∉ l, s.correctHead.value q = s.value q) ∧
        (∀ q ∈ l, Proper (s.correctHead.value q)) ∧
        (∀ h ∈ l.head?, s.correctHead.remaining h = (s.correctHead.value h).us) ∧
        s.deltas l = Delta.amounts Timeval.us (s.correctHead.values l) := by
    intro hc hsync
    rw [hc]
    exact ⟨⟨rfl, rfl, rfl, rfl⟩, fun _ _ => rfl, hproper, hsync, deltas_eq_amounts hsync⟩
  have hhead := hq.head_eq
  by_cases hset : s.itimer.timerisset = true
  · cases l with
    | nil =>
      have hc : s.correctHead = s := by
        unfold correctHead
        rw [show s.eventQueue = none from hhead, hset]
      exact hsame hc (by simp)
    | cons h l =>
      have hle := hrem h rfl
      have hh := hproper h List.mem_cons_self
      have hnd := hq.nodup
      by_cases hgt : timercmpLt (s.value h) s.itimer = true
      · -- not a proper comparison, but the times are equal
        have hge := hh.le_of_timercmpLt hit hgt
        have hsync : ∀ q ∈ (h :: l).head?, s.remaining q = (s.value q).us := by
          intro q hq
          cases Option.some.inj hq
          rw [remaining, if_pos hset]
          omega
        have hc : s.correctHead = s := by
          unfold correctHead
          rw [show s.eventQueue = some h from hhead, hset]
          exact if_pos hgt
        exact hsame hc hsync
      · have hc : s.correctHead = s.setValue h s.itimer := by
          unfold correctHead
          rw [show s.eventQueue = some h from hhead, hset]
          exact if_neg hgt
        rw [hc]
        have hsync : (s.setValue h s.itimer).remaining h = ((s.setValue h s.itimer).value h).us := by
          rw [remaining, setValue_self]
          exact if_pos hset
        refine ⟨s.sameLinks_setValue _ _, fun q hq => ?_, fun q hq => ?_, ?_, ?_⟩
        · exact s.setValue_of_ne _ fun hqh => hq (hqh ▸ List.mem_cons_self)
        · by_cases hqh : q = h
          · rw [hqh, setValue_self]
            exact hit
          · rw [setValue_of_ne _ _ hqh]
            exact hproper q hq
        · intro q hq
          cases Option.some.inj hq
          exact hsync
        · have hrest : (s.setValue h s.itimer).values l = s.values l :=
            values_congr fun x hx => s.setValue_of_ne _ fun hxh =>
              (List.nodup_cons.mp hnd).1 (hxh ▸ hx)
          show _ = (h, ((s.setValue h s.itimer).value h).us) ::
            Delta.amounts Timeval.us ((s.setValue h s.itimer).values l)
          rw [hrest, setValue_self, deltas, remaining, if_pos hset, Delta.amounts, values,
            List.map_map]
          rfl
  · have hc : s.correctHead = s := by
      unfold correctHead
      rw [eq_false_of_ne_true hset]
    exact hsame hc fun q _ => by rw [remaining, if_neg hset]

/-! ### The whole call -/

/-- The event has its new times, and all else is as before. -/
def prepared (s : Timers n) (e : Fin n) (value : Itimerspec) : Timers n :=
  ((s.setInterval e value.itInterval.toTimeval).setValue e value.itValue.toTimeval).setValue e
    (timerroundup value.itValue.toTimeval s.gGranularity)

theorem prepared_value (s : Timers n) (e : Fin n) (value : Itimerspec) :
    (s.prepared e value).value =
      Function.update s.value e (timerroundup value.itValue.toTimeval s.gGranularity) := by
  unfold prepared
  rw [value_setValue, value_setValue, value_setInterval, Function.update_idem]

theorem prepared_links (s : Timers n) (e : Fin n) (value : Itimerspec) :
    SameLinks s (s.prepared e value) := by
  refine SameLinks.trans ?_ (sameLinks_setValue _ _ _)
  exact SameLinks.trans ⟨next_setInterval s e _, rfl, rfl, rfl⟩ (sameLinks_setValue _ _ _)

/-- The event linked in where the loop stopped, and the timer issued if it is
the first. -/
def linked (s : Timers n) (e : Fin n) (pp : Option (Fin n)) : Timers n :=
  (s.setNext e (s.load pp)).store (some e) pp

theorem linked_value (s : Timers n) (e : Fin n) (pp : Option (Fin n)) :
    (s.linked e pp).value = s.value := by
  unfold linked
  rw [value_store, value_setNext]

theorem linked_itimer (s : Timers n) (e : Fin n) (pp : Option (Fin n)) :
    (s.linked e pp).itimer = s.itimer ∧ (s.linked e pp).gGranularity = s.gGranularity := by
  cases pp <;> exact ⟨rfl, rfl⟩

end Timers

open Timers

theorem timerSettime_eq {s s' : Timers n} {e : Fin n} {value : Itimerspec} {pp : Option (Fin n)}
    (hset : value.itValue.toTimeval.timerisset = true)
    (hloop : settimeLoop e (n + 1) (s.prepared e value).correctHead none = some (s', pp))
    (hcheck : (s'.linked e pp).checkEventQueue = true) :
    timerSettime s e value = (if (s'.linked e pp).eventQueue = some e then (s'.linked e pp).reissue e
      else some (s'.linked e pp)).map fun s => s.setCancelled e false := by
  unfold timerSettime
  have hv : ((s.setInterval e value.itInterval.toTimeval).setValue e
      value.itValue.toTimeval).value e = value.itValue.toTimeval := setValue_self ..
  simp only [hv, hset, Bool.true_eq_false, if_false]
  rw [show (((s.setInterval e value.itInterval.toTimeval).setValue e value.itValue.toTimeval).setValue e
    (timerroundup value.itValue.toTimeval ((s.setInterval e value.itInterval.toTimeval).setValue e
      value.itValue.toTimeval).gGranularity)) = s.prepared e value from rfl, hloop]
  show (if (s'.linked e pp).checkEventQueue = false then none else _) = _
  rw [hcheck]
  rfl

/-- A request of at least a microsecond. -/
theorem timespec_set {ts : Timespec} (hs : 0 ≤ ts.sec) (hn : 0 ≤ ts.nsec)
    (h : 0 < ts.sec ∨ 1000 ≤ ts.nsec) :
    ts.toTimeval.timerisset = true ∧ 0 ≤ ts.toTimeval.sec ∧ 0 ≤ ts.toTimeval.usec := by
  have hdiv : ts.nsec.tdiv 1000 = ts.nsec / 1000 := Int.tdiv_eq_ediv_of_nonneg hn
  refine ⟨?_, hs, show 0 ≤ ts.nsec.tdiv 1000 by omega⟩
  unfold timerisset Timespec.toTimeval
  rw [decide_eq_true_eq]
  simp only
  omega

/-- The state before the end of the call: the event stands behind `l₁`, the
values are those of the insertion, and the head's is what remains. -/
theorem settime_inserts {s : Timers n} {l : List (Fin n)} {e : Fin n} (value : Itimerspec)
    (hq : s.Queue l) (he : e ∉ l) (hproper : ∀ q ∈ l, Proper (s.value q)) (hit : Proper s.itimer)
    (hrem : ∀ h ∈ l.head?, s.itimer.us ≤ (s.value h).us) :
    ∃ s' l₁ l₂ w, l = l₁ ++ l₂ ∧
      settimeLoop e (n + 1) (s.prepared e value).correctHead none = some (s', l₁.getLast?) ∧
      (s'.linked e l₁.getLast?).Queue (l₁ ++ e :: l₂) ∧
      s'.itimer = s.itimer ∧ s'.gGranularity = s.gGranularity ∧
      (∀ p ∈ w, Proper p.2) ∧ s.deltas l = Delta.amounts Timeval.us w ∧
      s'.values (l₁ ++ e :: l₂) = Delta.insert timersub timercmpLt e
        (timerroundup value.itValue.toTimeval s.gGranularity) w ∧
      (l₁ = [] → s'.value e = timerroundup value.itValue.toTimeval s.gGranularity) ∧
      ∀ h ∈ l₁.head?, s'.remaining h = (s'.value h).us := by
  have hlinks := s.prepared_links e value
  have hsame : ∀ q ∈ l, (s.prepared e value).value q = s.value q := by
    intro q hq
    have hqe : q ≠ e := fun hqe => he (hqe ▸ hq)
    rw [prepared_value, Function.update_of_ne hqe]
  have hvalue : (s.prepared e value).value e = timerroundup value.itValue.toTimeval s.gGranularity := by
    rw [prepared_value, Function.update_self]
  have hdeltas : (s.prepared e value).deltas l = s.deltas l := by
    cases l with
    | nil => rfl
    | cons h l =>
      have hrest := List.map_congr_left fun q hq =>
        congrArg (fun v => (q, v.us)) (hsame q (List.mem_cons_of_mem _ hq))
      rw [deltas, deltas, remaining, remaining, hlinks.itimer, hsame h List.mem_cons_self]
      exact congrArg _ hrest
  -- the head corrected
  obtain ⟨hclinks, hcother, hcproper, hcsync, hcdeltas⟩ := correctHead_synced (hlinks.queue hq)
    (fun q hq => by rw [hsame q hq]; exact hproper q hq) (by rw [hlinks.itimer]; exact hit)
    (fun h hh => by
      rw [hlinks.itimer, hsame h (List.mem_of_mem_head? hh)]
      exact hrem h hh)
  -- the event inserted
  have hcq := hclinks.queue (hlinks.queue hq)
  obtain ⟨s', l₁, l₂, rfl, hloop, hslinks, hvalues, hfirst, hbefore, -⟩ :=
    settimeLoop_spec (show Linked _ (Timers.load _ none) l from hcq) he
      (Nat.lt_succ_of_le hcq.length_le)
  rw [Option.or_none] at hloop
  have hcvalue : (s.prepared e value).correctHead.value e =
      timerroundup value.itValue.toTimeval s.gGranularity := by rw [hcother e he, hvalue]
  refine ⟨s', l₁, l₂, (s.prepared e value).correctHead.values (l₁ ++ l₂), rfl, hloop,
    (hslinks.queue hcq).link he, hslinks.itimer.trans (hclinks.itimer.trans hlinks.itimer),
    hslinks.gGranularity.trans (hclinks.gGranularity.trans hlinks.gGranularity), ?_,
    hdeltas.symm.trans hcdeltas, ?_, fun h1 => (hfirst h1).trans hcvalue, ?_⟩
  · intro p hp
    obtain ⟨q, hq, rfl⟩ := List.mem_map.mp hp
    exact hcproper q hq
  · rw [hvalues, hcvalue]
  · intro h hh
    have hmem := List.mem_of_mem_head? hh
    have hsync := hcsync h (by
      cases l₁ with
      | nil => cases hh
      | cons x l₁ => exact hh)
    rw [remaining, hslinks.itimer, hbefore h hmem]
    exact hsync

/-- The end of the call: the interval timer is issued if the event is the
first, and nothing else changes. -/
theorem settime_finish {s s' : Timers n} {l₁ l₂ : List (Fin n)} {e : Fin n} {value : Itimerspec}
    (hset : value.itValue.toTimeval.timerisset = true) (hsec : 0 ≤ value.itValue.toTimeval.sec)
    (husec : 0 ≤ value.itValue.toTimeval.usec) (hg : 0 < s.gGranularity) (he : e ∉ l₁ ++ l₂)
    (hloop : settimeLoop e (n + 1) (s.prepared e value).correctHead none = some (s', l₁.getLast?))
    (hqueue : (s'.linked e l₁.getLast?).Queue (l₁ ++ e :: l₂))
    (hgran : s'.gGranularity = s.gGranularity)
    (hfirst : l₁ = [] → s'.value e = timerroundup value.itValue.toTimeval s.gGranularity)
    (hsync : ∀ h ∈ l₁.head?, s'.remaining h = (s'.value h).us) :
    ∃ s'', timerSettime s e value = some s'' ∧ s''.Queue (l₁ ++ e :: l₂) ∧ s''.value = s'.value ∧
      ∀ h ∈ (l₁ ++ e :: l₂).head?, s''.remaining h = (s''.value h).us := by
  obtain ⟨hitimer, hgran'⟩ := s'.linked_itimer e l₁.getLast?
  have hvalue := s'.linked_value e l₁.getLast?
  rw [timerSettime_eq hset hloop hqueue.check]
  generalize s'.linked e l₁.getLast? = t at hqueue hitimer hgran' hvalue ⊢
  cases l₁ with
  | nil =>
    have hgz : (0 : ℤ) < s.gGranularity := Int.natCast_pos.mpr hg
    have hv : t.value e = timerroundup value.itValue.toTimeval s.gGranularity := by
      rw [hvalue]
      exact hfirst rfl
    obtain ⟨hs0, hu0⟩ := timerroundup_nonneg hsec husec hgz
    -- rounding once more changes nothing
    have hidem : timerroundup (t.value e) t.gGranularity = t.value e := by
      rw [hv, hgran', hgran, timerroundup_idem husec hgz]
    have hre : t.reissue e = some ((t.setValue e (t.value e)).setitimer (t.value e)) := by
      have hre := reissue_eq (s := t) (h := e) (by rw [hv]; exact hs0) (by rw [hv]; exact hu0)
        (by rw [hgran', hgran]; exact hg)
      rw [hidem] at hre
      exact hre
    rw [if_pos hqueue.1, hre]
    refine ⟨_, rfl, ?_, ?_, ?_⟩
    · show Linked (Timers.setCancelled _ e false).next _ _
      rw [next_setCancelled]
      show Linked (t.setValue e _).next _ _
      rw [next_setValue]
      exact hqueue
    · rw [value_setCancelled]
      show (t.setValue e _).value = _
      rw [value_setValue, Function.update_eq_self, hvalue]
    · intro h hh
      cases Option.some.inj hh
      have hisset : (t.value e).timerisset = true := by
        rw [hv]
        exact (timerroundup_set hsec husec hgz).1
      rw [remaining, value_setCancelled]
      show (if (t.value e).timerisset then (t.value e).us else _) = ((t.setValue e _).value e).us
      rw [if_pos hisset, setValue_self]
  | cons h l₁ =>
    have hne : t.eventQueue ≠ some e := by
      rw [hqueue.1]
      intro hhe
      exact he (Option.some.inj hhe ▸ List.mem_cons_self)
    rw [if_neg hne]
    refine ⟨_, rfl, ?_, ?_, ?_⟩
    · show Linked (t.setCancelled e false).next _ _
      rw [next_setCancelled]
      exact hqueue
    · rw [value_setCancelled, hvalue]
    · intro h' hh'
      have hs := hsync h' hh'
      rw [remaining] at hs
      rw [remaining, value_setCancelled, hvalue]
      show (if t.itimer.timerisset then t.itimer.us else _) = _
      rw [hitimer]
      exact hs

/-- **Setting a timer keeps every deadline.** The event, not on the queue, is
inserted so that it is due after the time requested, rounded up; no other
deadline moves; and the queue stays in the order of the deadlines, if the
granularity divides the second. -/
theorem timerSettime_deadlines {s : Timers n} {l : List (Fin n)} {e : Fin n} {value : Itimerspec}
    (hq : s.Queue l) (he : e ∉ l) (hproper : ∀ q ∈ l, Proper (s.value q)) (hit : Proper s.itimer)
    (hrem : ∀ h ∈ l.head?, s.itimer.us ≤ (s.value h).us) (hg : 0 < s.gGranularity)
    (hsec : 0 ≤ value.itValue.sec) (hnsec : 0 ≤ value.itValue.nsec ∧ value.itValue.nsec < 1000000000)
    (hpos : 0 < value.itValue.sec ∨ 1000 ≤ value.itValue.nsec) :
    ∃ s' D₁ D₂, timerSettime s e value = some s' ∧ s.deadlines l = D₁ ++ D₂ ∧
      s'.Queue (D₁.map Prod.fst ++ e :: D₂.map Prod.fst) ∧
      s'.deadlines (D₁.map Prod.fst ++ e :: D₂.map Prod.fst) =
        D₁ ++ (e, (timerroundup value.itValue.toTimeval s.gGranularity).us) :: D₂ ∧
      ((s.gGranularity : ℤ) ∣ 1000000 →
        ((s'.deadlines (D₁.map Prod.fst ++ e :: D₂.map Prod.fst)).map Prod.snd).Pairwise (· ≤ ·)) := by
  obtain ⟨hset, hsec', husec⟩ := timespec_set hsec hnsec.1 hpos
  obtain ⟨s₁, l₁, l₂, w, rfl, hloop, hqueue, -, hgran, hw, hdeltas, hvalues, hfirst, hsync⟩ :=
    settime_inserts value hq he hproper hit hrem
  obtain ⟨s', hs', hq', hv', hsync'⟩ :=
    settime_finish hset hsec' husec hg he hloop hqueue hgran hfirst hsync
  obtain ⟨D₁, D₂, hold, hnew⟩ := Delta.due_insert timercmpLt us_timersub e (0 : ℤ)
    (timerroundup value.itValue.toTimeval s.gGranularity) w
  have hdelta' : s'.deltas (l₁ ++ e :: l₂) = Delta.amounts Timeval.us (Delta.insert timersub timercmpLt e
      (timerroundup value.itValue.toTimeval s.gGranularity) w) := by
    rw [deltas_eq_amounts hsync', ← hvalues]
    exact congrArg _ (values_congr fun q _ => congrFun hv' q)
  have hdue : s'.deadlines (l₁ ++ e :: l₂) =
      D₁ ++ (e, (timerroundup value.itValue.toTimeval s.gGranularity).us) :: D₂ := by
    rw [deadlines, hdelta', hnew, zero_add]
  have hfst : D₁.map Prod.fst ++ e :: D₂.map Prod.fst = l₁ ++ e :: l₂ := by
    have hmap := s'.deadlines_map_fst (l₁ ++ e :: l₂)
    rw [hdue] at hmap
    simpa using hmap
  refine ⟨s', D₁, D₂, hs', by rw [deadlines, hdeltas, hold], hfst ▸ hq', hfst ▸ hdue, ?_⟩
  intro hdvd
  have hreq : Proper value.itValue.toTimeval := by
    refine ⟨hsec', husec, ?_⟩
    show value.itValue.nsec.tdiv 1000 ≤ 1000000
    rw [Int.tdiv_eq_ediv_of_nonneg hnsec.1]
    omega
  have hgood := Delta.insert_good timercmpLt
    (fun v w hv hw hlt => hw.timersub hv (timercmpLt_asymm hlt))
    (fun v w hv hw hge => hv.timersub hw hge) e _ w
    (proper_timerroundup hreq (Int.natCast_pos.mpr hg) hdvd) hw
  rw [hfst, deadlines, hdelta']
  refine (Delta.due_pairwise 0 fun p hp => ?_).1
  obtain ⟨p', hp', rfl⟩ := List.mem_map.mp hp
  exact (hgood p' hp').us_nonneg

/-- Two events with the value `v`, the second on the queue. -/
def oneQueued (g : ℕ) (v itimer : Timeval) : Timers 2 where
  event _ := ⟨Timeval.zero, v, false, false, none⟩
  eventQueue := some 1
  eventFreelist := none
  gGranularity := g
  itimer := itimer

/-- Two seconds, while an event of five seconds has four to go. -/
theorem timerSettime_deadlines_before :
    (oneQueued 10000 ⟨5, 0⟩ ⟨4, 0⟩).deadlines [1] = [(1, 4000000)] ∧
    ∃ s' D₁ D₂, timerSettime (oneQueued 10000 ⟨5, 0⟩ ⟨4, 0⟩) 0 ⟨⟨0, 0⟩, ⟨2, 0⟩⟩ = some s' ∧
      (oneQueued 10000 ⟨5, 0⟩ ⟨4, 0⟩).deadlines [1] = D₁ ++ D₂ ∧
      s'.deadlines (D₁.map Prod.fst ++ 0 :: D₂.map Prod.fst) = D₁ ++ (0, 2000000) :: D₂ := by
  refine ⟨by decide, ?_⟩
  have hp : Proper ⟨5, 0⟩ := ⟨by decide, by decide, by decide⟩
  obtain ⟨s', D₁, D₂, hs, hold, -, hnew, -⟩ :=
    timerSettime_deadlines (s := oneQueued 10000 ⟨5, 0⟩ ⟨4, 0⟩) (l := [1]) (e := 0)
      ⟨rfl, rfl⟩ (by decide) (fun _ _ => hp) ⟨by decide, by decide, by decide⟩ (by decide) (by decide)
      (show 0 ≤ (Itimerspec.mk ⟨0, 0⟩ ⟨2, 0⟩).itValue.sec by decide) ⟨by decide, by decide⟩
      (Or.inl (by decide))
  exact ⟨s', D₁, D₂, hs, hold, hnew⟩

/-- Less than a microsecond disarms the event; with a granularity that does
not divide the second, the event may come before one that is due earlier; and
for an event on the queue the program exits. -/
theorem timerSettime_exceptions :
    (∃ s', timerSettime (oneQueued 10000 ⟨5, 0⟩ ⟨4, 0⟩) 0 ⟨⟨0, 0⟩, ⟨0, 500⟩⟩ = some s' ∧
      s'.Queue [1]) ∧
    (∃ s', timerSettime (oneQueued 300000 ⟨1, 100000⟩ ⟨1, 100000⟩) 0 ⟨⟨0, 0⟩, ⟨0, 950000000⟩⟩ =
      some s' ∧ s'.Queue [0, 1] ∧ s'.deadlines [0, 1] = [(0, 1200000), (1, 1100000)]) ∧
    timerSettime (oneQueued 10000 ⟨5, 0⟩ ⟨4, 0⟩) 1 ⟨⟨0, 0⟩, ⟨2, 0⟩⟩ = none :=
  ⟨⟨_, rfl, rfl, rfl⟩, ⟨_, rfl, ⟨rfl, rfl, rfl⟩, by decide⟩, rfl⟩

end Timer
end Router
