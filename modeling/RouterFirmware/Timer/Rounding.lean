/-
# Rounding without a carry

`setitimer` takes no microseconds from a million on, and `timerroundup` does not carry: less than a second is rounded up
to a multiple of the granularity, be that a full second. `Roundable` says which times it leaves normalised
(`normalised_timerroundup_iff`), and for each operation it is said which times it rounds up (`handedOver`,
`alarmRounds`, `settimeRounds`) and that the values on the queue are normalised if those are roundable.

An event may be set while it is on the queue. What the queue is then follows from the check that it ends
(`Owns.relink`).
-/
import RouterFirmware.Timer.Owner

namespace Router
namespace Timer

open Timeval Timers

variable {n : ℕ} {R : Type}

/-! ### Rounding -/

/-- Normalised, and without a second no more than the last multiple of `g` below one. -/
def Roundable (g : ℕ) (t : Timeval) : Prop := Normalised t ∧ (t.sec = 0 → max t.usec 1 ≤ 999999 / g * g)

instance (g : ℕ) (t : Timeval) : Decidable (Roundable g t) := inferInstanceAs (Decidable (_ ∧ _))

theorem roundup_lt_iff {g x : ℤ} (hg : 0 < g) : roundup x g < 1000000 ↔ x ≤ 999999 / g * g := by
  have hdiv : 999999 / g * g ≤ 999999 := Int.ediv_mul_le _ hg.ne'
  constructor
  · intro h
    obtain ⟨k, hk⟩ := dvd_roundup x g
    have hle : k ≤ 999999 / g := (Int.le_ediv_iff_mul_le hg).mpr (by rw [mul_comm, ← hk]; omega)
    calc x ≤ roundup x g := le_roundup hg x
      _ = k * g := by rw [hk, mul_comm]
      _ ≤ 999999 / g * g := Int.mul_le_mul_of_nonneg_right hle hg.le
  · intro h
    calc roundup x g ≤ roundup (999999 / g * g) g := roundup_mono hg h
      _ = 999999 / g * g := roundup_of_dvd hg (Dvd.intro_left _ rfl)
      _ < 1000000 := by omega

variable {g : ℕ} {t : Timeval}

/-- **When rounding up leaves a normalised time.** -/
theorem normalised_timerroundup_iff (hg : 0 < g) (ht : Carried t) : Normalised (timerroundup t g) ↔ Roundable g t := by
  have hg' : (0 : ℤ) < g := Int.natCast_pos.mpr hg
  by_cases hs : t.sec = 0
  · have hle := le_roundup hg' (max t.usec 1)
    have hmax := le_max_right t.usec 1
    rw [timerroundup_of_sec_zero hs ht.usec_nonneg, Roundable, ← roundup_lt_iff hg']
    constructor
    · intro h
      exact ⟨⟨ht, hs.ge⟩, fun _ => h.usec_lt⟩
    · intro h
      exact ⟨⟨show 0 ≤ roundup _ _ by omega, h.2 hs⟩, le_rfl⟩
  · rw [timerroundup_of_sec_ne hs, Roundable]
    simp [hs]

theorem Roundable.granularity (h : Roundable g t) (hs : t.sec = 0) : 0 < g := by
  have hle := h.2 hs
  have hmax := le_max_right t.usec 1
  rcases Nat.eq_zero_or_pos g with rfl | hg
  · simp at hle
  · exact hg

theorem Roundable.normalised (h : Roundable g t) : Normalised (timerroundup t g) := by
  by_cases hs : t.sec = 0
  · exact (normalised_timerroundup_iff (h.granularity hs) h.1.toCarried).mpr h
  · rw [timerroundup_of_sec_ne hs]
    exact h.1

/-- What has been rounded up can be again. -/
theorem Roundable.timerroundup (h : Roundable g t) : Roundable g (timerroundup t g) := by
  by_cases hs : t.sec = 0
  · have hg := h.granularity hs
    rw [← normalised_timerroundup_iff hg h.normalised.toCarried,
      timerroundup_idem h.1.usec_nonneg (Int.natCast_pos.mpr hg)]
    exact h.normalised
  · rwa [timerroundup_of_sec_ne hs]

/-! ### An event put in, on the queue or not -/

namespace Timers

variable {s s' : Timers n} {e x : Fin n} {q f : List (Fin n)} {P : Fin n → Prop} {pp pp' : Option (Fin n)}

/-- A walk along the queue meets `P` only. -/
structure Closed (s : Timers n) (P : Fin n → Prop) : Prop where
  head : ∀ x, s.eventQueue = some x → P x
  next : ∀ x y, P x → s.next x = some y → P y

theorem Closed.load (h : Closed s P) (hpp : ∀ p ∈ pp, P p) (hx : s.load pp = some x) : P x := by
  cases pp with
  | none => exact h.head x hx
  | some p => exact h.next p x (hpp p rfl) hx

theorem mem_of_linked {next : Fin n → Option (Fin n)} (hnext : ∀ x y, P x → next x = some y → P y) :
    ∀ {l : List (Fin n)} {o : Option (Fin n)}, Linked next o l → (∀ x, o = some x → P x) → ∀ x ∈ l, P x
  | [], _, _, _, x, hx => by cases hx
  | p :: l, o, h, ho, x, hx => by
    have hp : P p := ho p h.1
    rcases List.mem_cons.mp hx with rfl | hx
    · exact hp
    · exact mem_of_linked hnext h.2 (fun y hy => hnext p y hp hy) x hx

theorem closed_queue (h : s.Queue q) : Closed s (· ∈ q) := by
  refine ⟨fun x hx => ?_, fun x y hx hy => ?_⟩
  · rw [h.head_eq] at hx
    exact List.mem_of_mem_head? hx
  · obtain ⟨pre, post, rfl⟩ := List.append_of_mem hx
    rw [h.link_eq] at hy
    exact List.mem_append_right _ (List.mem_cons_of_mem _ (List.mem_of_mem_head? hy))

/-- A queue that passes the check ends. -/
theorem exists_linked_of_checkLoop : ∀ {k : ℕ} {o : Option (Fin n)}, s.checkLoop k o = true → ∃ l, Linked s.next o l
  | _, none, _ => ⟨[], rfl⟩
  | 0, some _, h => by cases h
  | k + 1, some p, h => by
    rw [checkLoop] at h
    obtain ⟨l, hl⟩ := exists_linked_of_checkLoop h
    exact ⟨p :: l, rfl, hl⟩

theorem Closed.linked (h : Closed s P) (hpp : ∀ p ∈ pp, P p) : Closed (s.linked e pp) fun x => P x ∨ x = e := by
  have hload : ∀ y, s.load pp = some y → P y := fun y => h.load hpp
  unfold Timers.linked
  cases pp with
  | none =>
    refine ⟨fun x hx => .inr (Option.some.inj hx).symm, fun x y hx hy => .inl ?_⟩
    change (s.setNext e _).next x = some y at hy
    rw [next_setNext, Function.update_apply] at hy
    split_ifs at hy with hxe
    · exact hload y hy
    · exact h.next x y (hx.resolve_right hxe) hy
  | some p =>
    refine ⟨fun x hx => .inl (h.head x hx), fun x y hx hy => ?_⟩
    change ((s.setNext e _).setNext p _).next x = some y at hy
    rw [next_setNext, next_setNext, Function.update_apply, Function.update_apply] at hy
    split_ifs at hy with hxp hxe
    · exact .inr (Option.some.inj hy).symm
    · exact .inl (hload y hy)
    · exact .inl (h.next x y (hx.resolve_right hxe) hy)

/-- The loop leaves normalised values, wherever the event stands. -/
theorem settimeLoop_normalised (hc : Closed s P) (hpp : ∀ p ∈ pp, P p)
    (hval : ∀ x, P x ∨ x = e → Normalised (s.value x)) {fuel : ℕ} (hrun : settimeLoop e fuel s pp = some (s', pp')) :
    SameLinks s s' ∧ (∀ p ∈ pp', P p) ∧ ∀ x, P x ∨ x = e → Normalised (s'.value x) := by
  induction fuel generalizing s pp with
  | zero => cases hrun
  | succ fuel ih =>
    rw [settimeLoop] at hrun
    cases hload : s.load pp with
    | none =>
      rw [hload] at hrun
      cases hrun
      exact ⟨⟨rfl, rfl, rfl, rfl⟩, hpp, hval⟩
    | some y =>
      have hy : P y := hc.load hpp hload
      simp only [hload] at hrun
      split_ifs at hrun with hlt
      · cases hrun
        refine ⟨sameLinks_setValue s y _, hpp, fun x hx => ?_⟩
        rw [value_setValue, Function.update_apply]
        split_ifs
        · exact (hval y (.inl hy)).timersub (hval e (.inr rfl)) (timercmpLt_asymm hlt)
        · exact hval x hx
      · have hlinks := sameLinks_setValue s e (timersub (s.value e) (s.value y))
        have hclosed : Closed (s.setValue e (timersub (s.value e) (s.value y))) P :=
          ⟨hc.head, fun x z hx hz => hc.next x z hx (by rwa [hlinks.next] at hz)⟩
        have hval' : ∀ x, P x ∨ x = e →
            Normalised ((s.setValue e (timersub (s.value e) (s.value y))).value x) := by
          intro x hx
          rw [value_setValue, Function.update_apply]
          split_ifs
          · exact (hval e (.inr rfl)).timersub (hval y (.inl hy)) (Bool.eq_false_iff.mpr hlt)
          · exact hval x hx
        obtain ⟨h1, h2, h3⟩ := ih hclosed (fun p hp => Option.some.inj hp ▸ hy) hval' hrun
        exact ⟨hlinks.trans h1, h2, h3⟩

/-- What the loop does not come to, it leaves. -/
theorem settimeLoop_value_of_notMem {fuel : ℕ} {l : List (Fin n)} (hl : Linked s.next (s.load pp) l) (hx : x ∉ l)
    (hxe : x ≠ e) (hrun : settimeLoop e fuel s pp = some (s', pp')) : s'.value x = s.value x := by
  induction fuel generalizing s pp l with
  | zero => cases hrun
  | succ fuel ih =>
    rw [settimeLoop] at hrun
    cases l with
    | nil =>
      rw [show s.load pp = none from hl] at hrun
      cases hrun
      rfl
    | cons y l =>
      rw [hl.1] at hrun
      simp only at hrun
      split_ifs at hrun with hlt
      · cases hrun
        exact setValue_of_ne s _ fun h => hx (h ▸ List.mem_cons_self)
      · have hlinks := sameLinks_setValue s e (timersub (s.value e) (s.value y))
        have hrest := ih (by rw [hlinks.load, hlinks.next]; exact hl.2) (List.not_mem_of_not_mem_cons hx) hrun
        rw [hrest, setValue_of_ne s _ hxe]

/-- An event with nothing to wait for keeps it. -/
theorem settimeLoop_zero {fuel : ℕ} {l : List (Fin n)} (hl : Linked s.next (s.load pp) l) (he : e ∉ l)
    (hval : ∀ x ∈ l, Normalised (s.value x)) (hzero : s.value e = zero)
    (hrun : settimeLoop e fuel s pp = some (s', pp')) : s'.value e = zero := by
  induction fuel generalizing s pp l with
  | zero => cases hrun
  | succ fuel ih =>
    rw [settimeLoop] at hrun
    cases l with
    | nil =>
      rw [show s.load pp = none from hl] at hrun
      cases hrun
      exact hzero
    | cons y l =>
      rw [hl.1] at hrun
      simp only at hrun
      have hey : e ≠ y := fun h => he (h ▸ List.mem_cons_self)
      split_ifs at hrun with hlt
      · cases hrun
        rw [setValue_of_ne s _ hey, hzero]
      · have hlinks := sameLinks_setValue s e (timersub (s.value e) (s.value y))
        rw [hzero, Bool.not_eq_true] at hlt
        have hy : s.value y = zero := (hval y List.mem_cons_self).eq_zero hlt
        refine ih (by rw [hlinks.load, hlinks.next]; exact hl.2) (List.not_mem_of_not_mem_cons he) (fun x hx => ?_) ?_
          hrun
        · have hxe : x ≠ e := fun h => he (h ▸ List.mem_cons_of_mem _ hx)
          rw [setValue_of_ne s _ hxe]
          exact hval x (List.mem_cons_of_mem _ hx)
        · rw [setValue_self, hzero, hy, timersub_self]

theorem settimeLoop_ne_none {fuel : ℕ} (hpp : pp ≠ none) (hrun : settimeLoop e fuel s pp = some (s', pp')) :
    pp' ≠ none := by
  induction fuel generalizing s pp with
  | zero => cases hrun
  | succ fuel ih =>
    rw [settimeLoop] at hrun
    cases hload : s.load pp with
    | none =>
      rw [hload] at hrun
      cases hrun
      exact hpp
    | some y =>
      simp only [hload] at hrun
      split_ifs at hrun
      · cases hrun
        exact hpp
      · exact ih (Option.some_ne_none y) hrun

/-- The event comes in front of the queue, as it is; or the head stays, as it is if it is another event. -/
theorem settimeLoop_head (hq : s.Queue q) (hval : ∀ x ∈ q, Normalised (s.value x)) {fuel : ℕ}
    (hrun : settimeLoop e fuel s none = some (s', pp)) :
    pp = none ∧ s'.value e = s.value e ∧ (∀ h, s.eventQueue = some h → timercmpLt (s.value e) (s.value h) = true) ∨
      pp ≠ none ∧ ∃ h, s.eventQueue = some h ∧ timercmpLt (s.value e) (s.value h) = false ∧
        s'.value h = if h = e then zero else s.value h := by
  cases fuel with
  | zero => cases hrun
  | succ fuel =>
    rw [settimeLoop] at hrun
    cases q with
    | nil =>
      have hempty : s.eventQueue = none := hq
      rw [show s.load none = none from hempty] at hrun
      cases hrun
      exact .inl ⟨rfl, rfl, by simp [hempty]⟩
    | cons h q =>
      have hhead : s.eventQueue = some h := hq.1
      have hh : h ∉ q := (List.nodup_cons.mp hq.nodup).1
      rw [show s.load none = some h from hhead] at hrun
      simp only at hrun
      split_ifs at hrun with hlt
      · cases hrun
        have hne : e ≠ h := by
          rintro rfl
          rw [timercmpLt_irrefl] at hlt
          cases hlt
        refine .inl ⟨rfl, setValue_of_ne s _ hne, fun x hx => ?_⟩
        rw [hhead, Option.some.injEq] at hx
        rwa [← hx]
      · rw [Bool.not_eq_true] at hlt
        have hlinks := sameLinks_setValue s e (timersub (s.value e) (s.value h))
        have hrest : Linked (s.setValue e (timersub (s.value e) (s.value h))).next
            ((s.setValue e (timersub (s.value e) (s.value h))).load (some h)) q := by
          rw [hlinks.load, hlinks.next]
          exact hq.2
        refine .inr ⟨settimeLoop_ne_none (Option.some_ne_none h) hrun, h, hhead, hlt, ?_⟩
        split_ifs with hhe
        · subst hhe
          refine settimeLoop_zero hrest hh (fun x hx => ?_) ?_ hrun
          · have hxh : x ≠ h := fun hxh => hh (hxh ▸ hx)
            rw [setValue_of_ne s _ hxh]
            exact hval x (List.mem_cons_of_mem _ hx)
          · rw [setValue_self, timersub_self]
        · rw [settimeLoop_value_of_notMem hrest hh hhe hrun, setValue_of_ne s _ hhe]

/-- An event linked in where the loop stopped: the queue is what the check finds. -/
theorem Owns.relink (h : Owns s q f) (hef : e ∉ f) (hval : ∀ x, x ∈ q ∨ x = e → Normalised (s.value x)) {fuel : ℕ}
    (hrun : settimeLoop e fuel s none = some (s', pp)) (hcheck : (s'.linked e pp).checkEventQueue = true) :
    ∃ q', Owns (s'.linked e pp) q' f ∧ SameFlags s (s'.linked e pp) ∧ (∀ x ∈ q', x ∈ q ∨ x = e) ∧
      ∀ x ∈ q', Normalised ((s'.linked e pp).value x) := by
  obtain ⟨hlinks, hpp, hval'⟩ := settimeLoop_normalised (closed_queue h.queue) (by simp) hval hrun
  have hflags : SameFlags s (s'.linked e pp) := (sameFlags_settimeLoop hrun).trans (sameFlags_linked _ _ _)
  obtain ⟨q', hq'⟩ := exists_linked_of_checkLoop hcheck
  have hclosed := (closed_queue (hlinks.queue h.queue)).linked (e := e) hpp
  have hmem : ∀ x ∈ q', x ∈ q ∨ x = e := mem_of_linked hclosed.next hq' hclosed.head
  refine ⟨q', h.requeued hq' hflags.eventFreelist (fun p hp => ?_) (fun x hx hxf => ?_), hflags, hmem, fun x hx => ?_⟩
  · have hpe : p ≠ e := fun hpe => hef (hpe ▸ hp)
    have hlast : pp ≠ some p := fun hlast => h.disjoint (hpp p hlast) hp
    rw [next_linked_of_ne _ hpe hlast, hlinks.next]
  · rcases hmem x hx with hq | rfl
    · exact h.disjoint hq hxf
    · exact hef hxf
  · rw [linked_value]
    exact hval' x (hmem x hx)

/-- The timer is issued for the head. -/
theorem reissue_normalised {h : Fin n} (hs : s.reissue h = some s') (hround : Roundable s.gGranularity (s.value h))
    (hval : ∀ x ∈ q, Normalised (s.value x)) :
    (∀ x ∈ q, Normalised (s'.value x)) ∧ Normalised s'.itimer := by
  unfold reissue at hs
  dsimp only at hs
  obtain ⟨-, hs⟩ := Option.ite_none_right_eq_some.mp hs
  cases hs
  constructor
  · intro x hx
    show Normalised ((s.setValue h _).value x)
    rw [value_setValue, Function.update_apply]
    split_ifs
    · exact hround.normalised
    · exact hval x hx
  · show Normalised (if _ then _ else _)
    split_ifs
    · exact hround.normalised
    · decide

/-! ### An event taken off -/

/-- The time that is rounded up when `e` is cancelled with the value `v`: that of the head of the queue without it. -/
def handedOver (s : Timers n) (e : Fin n) (v : Timeval) : Option Timeval :=
  if s.onQueue e then
    match s.eventQueue with
    | none => none
    | some h =>
      if h = e then (s.next e).map fun q => timeradd (s.value q) (timersub v s.itimer) else some (s.value h)
  else none

theorem handedOver_first {y : Fin n} {post : List (Fin n)} (h : Owns s (e :: y :: post) f) (v : Timeval) :
    s.handedOver e v = some (timeradd (s.value y) (timersub v s.itimer)) := by
  have hon : s.onQueue e = true := h.onQueue_iff.mpr List.mem_cons_self
  have hnext : s.next e = some y := h.queue.2.1
  rw [handedOver, if_pos hon, h.queue.1, hnext]
  simp

theorem handedOver_behind {y : Fin n} (h : Owns s (y :: q) f) (he : e ∈ q) (v : Timeval) :
    s.handedOver e v = some (s.value y) := by
  have hon : s.onQueue e = true := h.onQueue_iff.mpr (List.mem_cons_of_mem _ he)
  have hye : y ≠ e := fun hye => (List.nodup_cons.mp h.queue.nodup).1 (hye ▸ he)
  rw [handedOver, if_pos hon, h.queue.1]
  exact if_neg hye

/-- What is asked of the time that is rounded up, by the place of the event. -/
structure Released (s : Timers n) (e : Fin n) (q : List (Fin n)) : Prop where
  first : ∀ y post, q = e :: y :: post →
    Roundable s.gGranularity (timeradd (s.value y) (timersub (s.value e) s.itimer))
  behind : ∀ y post, q = y :: post → e ∈ post → Roundable s.gGranularity (s.value y)

theorem Owns.released (h : Owns s q f) (hround : ∀ v ∈ s.handedOver e (s.value e), Roundable s.gGranularity v) :
    Released s e q := by
  refine ⟨?_, ?_⟩
  · rintro y post rfl
    exact hround _ (handedOver_first h _)
  · rintro y post rfl he
    exact hround _ (handedOver_behind h he _)

theorem cancelLoop_normalised (h : Owns s q f) (hval : ∀ x ∈ q, x ≠ e → Normalised (s.value x))
    (hit : Normalised s.itimer) (hrel : Released s e q) (hrun : s.cancelLoop e (n + 1) none = some s') :
    (∀ x ∈ q.erase e, Normalised (s'.value x)) ∧ Normalised s'.itimer := by
  by_cases he : e ∈ q
  · obtain ⟨pre, post, rfl⟩ := List.append_of_mem he
    have hout := notMem_of_queue h.queue
    have hpre : e ∉ pre := fun hm => hout (List.mem_append_left _ hm)
    have hlen : pre.length < n + 1 := by
      have hle := h.queue.length_le
      rw [List.length_append] at hle
      omega
    obtain ⟨-, hvalue, hgran⟩ := unlinked_facts pre post h.queue
    rw [cancelLoop_eq (show Linked s.next (s.load none) _ from h.queue) hpre hlen, Option.or_none,
      unlink_eq pre post h.queue] at hrun
    rw [List.erase_append_right _ hpre, List.erase_cons_head]
    cases pre with
    | nil =>
      cases post with
      | nil =>
        cases hrun
        exact ⟨by simp, normalised_zero⟩
      | cons y post =>
        have hye : y ≠ e := fun hye => hout (hye ▸ List.mem_cons_self)
        have hround := hrel.first y post rfl
        obtain ⟨hy, hrest⟩ := cancelHead_first h.queue.1 h.queue.2.1 hye
        refine reissue_normalised hrun ?_ fun x hx => ?_
        · rwa [hvalue, hgran, hy]
        · have hxe : x ≠ e := fun hxe => hout (hxe ▸ hx)
          rw [hvalue]
          by_cases hxy : x = y
          · rw [hxy, hy]
            exact hround.1
          · rw [hrest x hxe hxy]
            exact hval x (List.mem_cons_of_mem _ hx) hxe
    | cons y pre =>
      have hbehind : s.eventQueue ≠ some e := by
        rw [h.queue.1]
        exact fun hye => hpre (Option.some.inj hye ▸ List.mem_cons_self)
      refine reissue_normalised hrun ?_ fun x hx => ?_
      · rw [hvalue, hgran, cancelHead_behind hbehind]
        exact hrel.behind y _ rfl (List.mem_append_right _ List.mem_cons_self)
      · have hxe : x ≠ e := fun hxe => hout (hxe ▸ hx)
        rw [hvalue, cancelHead_behind hbehind]
        exact hval x (List.perm_middle.mem_iff.mpr (List.mem_cons_of_mem _ hx)) hxe
  · rw [cancelLoop_of_notMem (show Linked s.next (s.load none) q from h.queue) he
      (Nat.lt_succ_of_le h.queue.length_le)] at hrun
    cases hrun
    rw [List.erase_of_not_mem he]
    exact ⟨fun x hx => hval x hx fun hxe => he (hxe ▸ hx), hit⟩

theorem timerCancel_normalised (h : Owns s q f) (hc : e ∈ q → (s.event e).cancelled = false)
    (hval : ∀ x ∈ q, x ≠ e → Normalised (s.value x)) (hit : Normalised s.itimer) (hrel : Released s e q)
    (hrun : timerCancel s e = some s') : (∀ x ∈ q.erase e, Normalised (s'.value x)) ∧ Normalised s'.itimer := by
  unfold timerCancel at hrun
  split_ifs at hrun with hcancelled
  · cases hrun
    have he : e ∉ q := fun he => by rw [hc he] at hcancelled; cases hcancelled
    rw [List.erase_of_not_mem he]
    exact ⟨fun x hx => hval x hx fun hxe => he (hxe ▸ hx), hit⟩
  · obtain ⟨t, hloop, rfl⟩ := Option.map_eq_some_iff.mp hrun
    rw [value_setCancelled]
    exact cancelLoop_normalised h hval hit hrel hloop

/-! ### An event put back -/

/-- The value of the head, if that stays the head when `e` has been put back: zero for `e` itself. -/
def staying (s : Timers n) (e : Fin n) : Option Timeval :=
  match s.eventQueue with
  | none => none
  | some h =>
    if s.recurs e then
      if h = e then some zero
      else if timercmpLt (timerroundup (s.event e).itInterval s.gGranularity) (s.value h) then none
      else some (s.value h)
    else some (s.value h)

/-- What `alarmReissue` rounds up. -/
def alarmRounds (s : Timers n) (e : Fin n) : List Timeval :=
  (if s.recurs e then [(s.event e).itInterval] else []) ++
    ((s.staying e).filter fun v => !timercmpLt v ⟨0, (s.gGranularity / 2 : ℕ)⟩).toList

theorem mem_alarmRounds_of_staying {v : Timeval} (hv : s.staying e = some v)
    (hagain : timercmpLt v ⟨0, (s.gGranularity / 2 : ℕ)⟩ = false) : v ∈ s.alarmRounds e := by
  refine List.mem_append_right _ ?_
  rw [hv, Option.filter_some, hagain]
  exact List.mem_singleton_self v

/-- The state before the loop. -/
def recurring (s : Timers n) (e : Fin n) : Timers n :=
  (s.setValue e (s.event e).itInterval).setValue e (timerroundup (s.event e).itInterval s.gGranularity)

theorem alarmRequeue_eq (s : Timers n) (e : Fin n) : s.alarmRequeue e =
    if s.recurs e then (settimeLoop e (n + 1) (s.recurring e) none).map fun r => r.1.linked e r.2 else some s := by
  unfold alarmRequeue recurs
  cases (s.event e).cancelled with
  | true => rfl
  | false =>
    cases (s.event e).itInterval.timerisset with
    | false => rfl
    | true =>
      show Option.map _ (settimeLoop e (n + 1) ((s.setValue e _).setValue e
        (timerroundup ((s.setValue e (s.event e).itInterval).value e) s.gGranularity)) none) = _
      rw [setValue_self]
      rfl

theorem recurring_links (s : Timers n) (e : Fin n) : SameLinks s (s.recurring e) :=
  (sameLinks_setValue s e _).trans (sameLinks_setValue _ e _)

theorem recurring_value (s : Timers n) (e : Fin n) :
    (s.recurring e).value = Function.update s.value e (timerroundup (s.event e).itInterval s.gGranularity) := by
  unfold recurring
  rw [value_setValue, value_setValue, Function.update_idem]

theorem eventQueue_linked_of_ne_none (s : Timers n) (e : Fin n) (hpp : pp ≠ none) :
    (s.linked e pp).eventQueue = s.eventQueue := by
  cases pp with
  | none => exact absurd rfl hpp
  | some p => rfl

/-- The queue, and the head when the loop does not go on, after an event may have been put back. -/
structure PutBack (s s' : Timers n) (e : Fin n) (q q' f : List (Fin n)) : Prop where
  owns : Owns s' q' f
  flags : SameFlags s s'
  mem : ∀ x ∈ q', x ∈ q ∨ x = e ∧ s.recurs e = true
  value : ∀ x ∈ q', Normalised (s'.value x)
  itimer : s'.itimer = s.itimer
  head : ∀ h, s'.eventQueue = some h → s'.alarmAgain = false → Roundable s'.gGranularity (s'.value h)

theorem alarmAgain_eq {h : Fin n} (hs : s.eventQueue = some h) :
    s.alarmAgain = timercmpLt (s.value h) ⟨0, (s.gGranularity / 2 : ℕ)⟩ := by
  rw [alarmAgain, hs]

theorem Owns.putBack (h : Owns s q f) (hef : s.recurs e = true → e ∉ f) (hval : ∀ x ∈ q, Normalised (s.value x))
    (hround : ∀ v ∈ s.alarmRounds e, Roundable s.gGranularity v) (hrun : s.alarmRequeue e = some s')
    (hcheck : s'.checkEventQueue = true) : ∃ q', PutBack s s' e q q' f := by
  rw [alarmRequeue_eq] at hrun
  split_ifs at hrun with hrecurs
  · obtain ⟨⟨t, pp⟩, hloop, rfl⟩ := Option.map_eq_some_iff.mp hrun
    have hinterval : Roundable s.gGranularity (s.event e).itInterval := by
      refine hround _ (List.mem_append_left _ ?_)
      rw [if_pos hrecurs]
      exact List.mem_singleton_self _
    have hlinks := recurring_links s e
    have hflags : SameFlags s (s.recurring e) := (sameFlags_setValue s e _).trans (sameFlags_setValue _ e _)
    have hready := h.same hlinks.next hlinks.eventQueue hflags.eventFreelist
    have hself : (s.recurring e).value e = timerroundup (s.event e).itInterval s.gGranularity := by
      rw [recurring_value, Function.update_self]
    have hother : ∀ x ≠ e, (s.recurring e).value x = s.value x := by
      intro x hx
      rw [recurring_value, Function.update_of_ne hx]
    have hval' : ∀ x, x ∈ q ∨ x = e → Normalised ((s.recurring e).value x) := by
      intro x hx
      by_cases hxe : x = e
      · rw [hxe, hself]
        exact hinterval.normalised
      · rw [hother x hxe]
        exact hval x (hx.resolve_right hxe)
    obtain ⟨q', howns, hflags', hmem, hvalue⟩ := hready.relink (hef hrecurs) hval' hloop hcheck
    have htlinks := (settimeLoop_normalised (closed_queue hready.queue) (by simp) hval' hloop).1
    obtain ⟨hitimer, hgran⟩ := linked_itimer t e pp
    refine ⟨q', howns, hflags.trans hflags', fun x hx => (hmem x hx).imp_right fun hxe => ⟨hxe, hrecurs⟩, hvalue, ?_,
      fun x hx hagain => ?_⟩
    · exact hitimer.trans (htlinks.itimer.trans hlinks.itimer)
    · rw [alarmAgain_eq hx] at hagain
      have hg : (t.linked e pp).gGranularity = s.gGranularity :=
        hgran.trans (htlinks.gGranularity.trans hlinks.gGranularity)
      rw [linked_value, hg] at hagain ⊢
      have hhval : ∀ x ∈ q, Normalised ((s.recurring e).value x) := fun x hx => hval' x (.inl hx)
      rcases settimeLoop_head hready.queue hhval hloop with ⟨rfl, hte, -⟩ | ⟨hpp, y, hy, hlt, hty⟩
      · cases hx
        rw [hte, hself]
        exact hinterval.timerroundup
      · have hxy : x = y := by
          have hstays := eventQueue_linked_of_ne_none t e hpp
          rw [htlinks.eventQueue, hy] at hstays
          exact Option.some.inj (hx.symm.trans hstays)
        subst hxy
        refine hround _ (mem_alarmRounds_of_staying ?_ hagain)
        rw [staying, ← hlinks.eventQueue, hy, hty]
        simp only [hrecurs, if_true]
        split_ifs with hxe hless
        · rfl
        · rw [hself, hother x hxe, hless] at hlt
          cases hlt
        · rw [hother x hxe]
  · cases hrun
    refine ⟨q, h, SameFlags.refl s, fun x hx => .inl hx, hval, rfl, fun x hx hagain => ?_⟩
    rw [alarmAgain_eq hx] at hagain
    refine hround _ (mem_alarmRounds_of_staying ?_ hagain)
    rw [staying, hx]
    exact if_neg hrecurs

/-! ### An event set -/

/-- What `timer_settime` rounds up: the time requested, and nothing to wait for if the event is the head already. -/
def settimeRounds (s : Timers n) (e : Fin n) (value : Itimerspec) : List Timeval :=
  value.itValue.toTimeval :: if s.eventQueue = some e then [zero] else []

theorem correctHead_normalised (hval : ∀ x ∈ q, Normalised (s.value x)) (hit : Normalised s.itimer) :
    ∀ x ∈ q, Normalised (s.correctHead.value x) := by
  intro x hx
  unfold correctHead
  split
  · split_ifs
    · exact hval x hx
    · rw [value_setValue, Function.update_apply]
      split_ifs
      · exact hit
      · exact hval x hx
  · exact hval x hx

theorem correctHead_value_of_ne (h : s.eventQueue ≠ some x) : s.correctHead.value x = s.value x := by
  unfold correctHead
  split
  · rename_i hy
    split_ifs
    · rfl
    · exact setValue_of_ne s _ fun hxy => h (hxy ▸ hy)
  · rfl

/-- A call that returns has found that the queue ends. -/
theorem exists_of_timerSettime {value : Itimerspec} (hset : value.itValue.toTimeval.timerisset = true)
    (hrun : timerSettime s e value = some s') : ∃ t pp,
    settimeLoop e (n + 1) (s.prepared e value).correctHead none = some (t, pp) ∧
      (t.linked e pp).checkEventQueue = true := by
  unfold timerSettime at hrun
  have hv : ((s.setInterval e value.itInterval.toTimeval).setValue e
      value.itValue.toTimeval).value e = value.itValue.toTimeval := setValue_self ..
  simp only [hv, hset, Bool.true_eq_false, if_false] at hrun
  rw [show (((s.setInterval e value.itInterval.toTimeval).setValue e value.itValue.toTimeval).setValue e
    (timerroundup value.itValue.toTimeval ((s.setInterval e value.itInterval.toTimeval).setValue e
      value.itValue.toTimeval).gGranularity)) = s.prepared e value from rfl] at hrun
  cases hloop : settimeLoop e (n + 1) (s.prepared e value).correctHead none with
  | none =>
    rw [hloop] at hrun
    cases hrun
  | some r =>
    obtain ⟨t, pp⟩ := r
    rw [hloop] at hrun
    change (if (t.linked e pp).checkEventQueue = false then none else _) = some s' at hrun
    split_ifs at hrun with hcheck
    all_goals exact ⟨t, pp, rfl, Bool.not_eq_false _ ▸ hcheck⟩

theorem timerSettime_normalised (h : Owns s q f) (hef : e ∉ f) (hval : ∀ x ∈ q, Normalised (s.value x))
    (hit : Normalised s.itimer) {value : Itimerspec} (hset : value.itValue.toTimeval.timerisset = true)
    (hround : ∀ v ∈ s.settimeRounds e value, Roundable s.gGranularity v) (hrun : timerSettime s e value = some s') :
    ∃ q', Owns s' q' f ∧ FlagsBut e false (s.event e).deleted s s' ∧ (∀ x ∈ q', x ∈ q ∨ x = e) ∧
      (∀ x ∈ q', Normalised (s'.value x)) ∧ Normalised s'.itimer := by
  obtain ⟨t, pp, hloop, hcheck⟩ := exists_of_timerSettime hset hrun
  rw [timerSettime_eq hset hloop hcheck] at hrun
  have hrequest : Roundable s.gGranularity value.itValue.toTimeval := hround _ List.mem_cons_self
  have hlinks := s.prepared_links e value
  have hclinks := hlinks.trans (correctHead_links _)
  have hprep : SameFlags s (s.prepared e value).correctHead :=
    (((sameFlags_setInterval s e _).trans (sameFlags_setValue _ _ _)).trans
      (sameFlags_setValue _ _ _)).trans (sameFlags_correctHead _)
  have hready := h.same hclinks.next hclinks.eventQueue hprep.eventFreelist
  have hself : (s.prepared e value).value e = timerroundup value.itValue.toTimeval s.gGranularity := by
    rw [prepared_value, Function.update_self]
  have hprepared : ∀ x, x ∈ q ∨ x = e → Normalised ((s.prepared e value).value x) := by
    intro x hx
    rw [prepared_value, Function.update_apply]
    split_ifs with hxe
    · exact hrequest.normalised
    · exact hval x (hx.resolve_right hxe)
  have hval' : ∀ x, x ∈ q ∨ x = e → Normalised ((s.prepared e value).correctHead.value x) := by
    intro x hx
    refine correctHead_normalised (q := e :: q) (fun y hy => hprepared y (List.mem_cons.mp hy).symm) ?_ x
      (List.mem_cons.mpr hx.symm)
    rw [hlinks.itimer]
    exact hit
  obtain ⟨q', howns, hflags, hmem, hvalue⟩ := hready.relink hef hval' hloop hcheck
  have htlinks := hclinks.trans (settimeLoop_normalised (closed_queue hready.queue) (by simp) hval' hloop).1
  obtain ⟨hitimer, hgran⟩ := linked_itimer t e pp
  obtain ⟨u, hu, rfl⟩ := Option.map_eq_some_iff.mp hrun
  have hend : u.next = (t.linked e pp).next ∧ u.eventQueue = (t.linked e pp).eventQueue ∧
      SameFlags (t.linked e pp) u ∧ (∀ x ∈ q', Normalised (u.value x)) ∧ Normalised u.itimer := by
    split_ifs at hu with hhead
    · obtain ⟨hnext, hqueue, hsame⟩ := reissue_same hu
      refine ⟨hnext, hqueue, hsame, reissue_normalised hu ?_ hvalue⟩
      rw [linked_value, hgran, htlinks.gGranularity]
      have hhval : ∀ x ∈ q, Normalised ((s.prepared e value).correctHead.value x) := fun x hx => hval' x (.inl hx)
      rcases settimeLoop_head hready.queue hhval hloop with ⟨-, hte, hfirst⟩ | ⟨hpp, y, hy, -, hty⟩
      · -- in front of the queue, with the time requested
        have hne : (s.prepared e value).eventQueue ≠ some e := by
          intro he
          have hless := hfirst e ((correctHead_links _).eventQueue.trans he)
          rw [timercmpLt_irrefl] at hless
          cases hless
        rw [hte, correctHead_value_of_ne hne, hself]
        exact hrequest.timerroundup
      · -- the head of the queue already, with nothing to wait for
        rw [eventQueue_linked_of_ne_none t e hpp, htlinks.eventQueue, ← hclinks.eventQueue, hy,
          Option.some.injEq] at hhead
        rw [← hhead, if_pos rfl] at hty
        rw [← hhead, hty]
        refine hround _ (List.mem_cons_of_mem _ ?_)
        rw [if_pos (hclinks.eventQueue.symm.trans (hhead ▸ hy))]
        exact List.mem_singleton_self _
    · cases hu
      refine ⟨rfl, rfl, SameFlags.refl _, hvalue, ?_⟩
      rw [hitimer, htlinks.itimer]
      exact hit
  obtain ⟨hnext, hqueue, hsame, hvalues, hnormal⟩ := hend
  have hall := (hprep.trans hflags).trans hsame
  refine ⟨q', ?_, (hall.but e).setEvent rfl (hall.deleted e), hmem, fun x hx => ?_, hnormal⟩
  · exact (howns.same hnext hqueue hsame.eventFreelist).same (next_setCancelled u e false) rfl rfl
  · rw [value_setCancelled]
    exact hvalues x hx

end Timers

end Timer
end Router
