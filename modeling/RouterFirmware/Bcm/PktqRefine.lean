/-
# The packet queue refines its FIFOs

`Rep st A`: the queue and the links of `st` hold the FIFOs `A`. Every legal
call keeps it and answers as the FIFOs do (`step_refines`), so that after any
run the queue holds what the same calls leave in an array of FIFOs
(`pktq_refines_fifos`). All changes of a queue are to one precedence and to
links that no other precedence follows; what has to be known of such a change
is said once, in `Rep.set`.
-/
import RouterFirmware.Lib.Run
import RouterFirmware.Bcm.Fifos

namespace Router
namespace Bcm

variable {Pkt : Type*}

theorem toNat_pred {a : UInt16} (h : 0 < a.toNat) : (a - 1).toNat + 1 = a.toNat := by
  have h1 : (1 : UInt16) ≤ a := UInt16.le_iff_toNat_le.mpr (show 1 ≤ a.toNat by omega)
  rw [UInt16.toNat_sub_of_le _ _ h1]
  show a.toNat - 1 + 1 = a.toNat
  omega

theorem toNat_succ {a b : UInt16} (h : ¬ a ≥ b) : (a + 1).toNat = a.toNat + 1 := by
  have hlt : a.toNat < b.toNat := UInt16.lt_iff_toNat_lt.mp (UInt16.not_le.mp h)
  have hb : b.toNat < 2 ^ 16 := UInt16.toNat_lt b
  rw [UInt16.toNat_add]
  show (a.toNat + 1) % 2 ^ 16 = a.toNat + 1
  omega

/-- The queue holds the FIFOs `A`. -/
structure Rep (st : PktqSt Pkt) (A : Fifos Pkt) : Prop where
  num : st.pq.numPrec.toNat = A.num
  num_pos : 0 < A.num
  num_le : A.num ≤ pktqMaxPrec
  chain : ∀ i < A.num, Linked st.link (st.pq.q i).head (A.q i)
  tail : ∀ i < A.num, (st.pq.q i).tail = (A.q i).getLast?
  len : ∀ i < A.num, (st.pq.q i).len.toNat = (A.q i).length
  plimit : ∀ i < A.num, (st.pq.q i).max = A.max
  limit : st.pq.max = A.max
  disjoint : ∀ i < A.num, ∀ j < A.num, i ≠ j → ∀ p ∈ A.q i, p ∉ A.q j
  total : st.pq.len.toNat = ∑ i ∈ Finset.range A.num, (A.q i).length
  hi_lt : st.pq.hiPrec.toNat < A.num
  le_hi : ∀ i < A.num, A.q i ≠ [] → i ≤ st.pq.hiPrec.toNat

namespace Rep

variable {st st' : PktqSt Pkt} {A : Fifos Pkt}

/-- One precedence changed, together with links that no other follows. -/
theorem set (h : Rep st A) {i : ℕ} (hi : i < A.num) {l : List Pkt} {link : Pkt → Option Pkt}
    {q : PktqPrec Pkt} {len hiPrec : UInt16} (hpmax : q.max = (st.pq.q i).max)
    (hlink : ∀ j < A.num, j ≠ i → ∀ p ∈ A.q j, link p = st.link p)
    (hchain : Linked link q.head l) (htail : q.tail = l.getLast?) (hlen : q.len.toNat = l.length)
    (hnew : ∀ p ∈ l, p ∈ A.q i ∨ ∀ j < A.num, p ∉ A.q j)
    (htotal : len.toNat + (A.q i).length = st.pq.len.toNat + l.length)
    (hhi : st.pq.hiPrec.toNat ≤ hiPrec.toNat) (hhi' : hiPrec.toNat < A.num)
    (hne : l ≠ [] → i ≤ hiPrec.toNat) :
    Rep ⟨link, { st.pq.setq i q with len := len, hiPrec := hiPrec }⟩ (A.set i l) := by
  have hq : ∀ j, j ≠ i → (st.pq.setq i q).q j = st.pq.q j := fun j hj => Function.update_of_ne hj ..
  have hqi : (st.pq.setq i q).q i = q := Function.update_self ..
  have hself : (A.set i l).q i = l := A.set_self i l
  have hother : ∀ j, j ≠ i → (A.set i l).q j = A.q j := fun j hj => A.set_of_ne hj l
  -- an element of `l` is in no other precedence
  have hout : ∀ j < A.num, j ≠ i → ∀ p ∈ l, p ∉ A.q j := by
    intro j hj hji p hp hpj
    rcases hnew p hp with hp' | hp'
    · exact h.disjoint i hi j hj (Ne.symm hji) p hp' hpj
    · exact hp' j hj hpj
  constructor
  · exact h.num
  · exact h.num_pos
  · exact h.num_le
  · intro j hj
    by_cases hji : j = i
    · subst hji
      rw [hself, hqi]
      exact hchain
    · rw [hother j hji, hq j hji]
      exact (h.chain j hj).congr (hlink j hj hji)
  · intro j hj
    by_cases hji : j = i
    · subst hji
      rw [hself, hqi, htail]
    · rw [hother j hji, hq j hji]
      exact h.tail j hj
  · intro j hj
    by_cases hji : j = i
    · subst hji
      rw [hself, hqi, hlen]
    · rw [hother j hji, hq j hji]
      exact h.len j hj
  · intro j hj
    by_cases hji : j = i
    · subst hji
      rw [hqi, hpmax]
      exact h.plimit j hj
    · rw [hq j hji]
      exact h.plimit j hj
  · exact h.limit
  · intro j hj k hk hjk p hpj hpk
    by_cases hji : j = i
    · subst hji
      rw [hself] at hpj
      rw [hother k (Ne.symm hjk)] at hpk
      exact hout k hk (Ne.symm hjk) p hpj hpk
    · rw [hother j hji] at hpj
      by_cases hki : k = i
      · subst hki
        rw [hself] at hpk
        exact hout j hj hji p hpk hpj
      · rw [hother k hki] at hpk
        exact h.disjoint j hj k hk hjk p hpj hpk
  · have hs := A.sum_set List.length hi l
    have ht := h.total
    show len.toNat = ∑ j ∈ Finset.range A.num, ((A.set i l).q j).length
    omega
  · exact hhi'
  · intro j hj hjne
    by_cases hji : j = i
    · subst hji
      rw [hself] at hjne
      exact hne hjne
    · rw [hother j hji] at hjne
      exact (h.le_hi j hj hjne).trans hhi

/-! ### Facts read off the representation -/

theorem head_eq (h : Rep st A) {i : ℕ} (hi : i < A.num) : (st.pq.q i).head = (A.q i).head? :=
  (h.chain i hi).head_eq

theorem head_eq_none (h : Rep st A) {i : ℕ} (hi : i < A.num) :
    (st.pq.q i).head = none ↔ A.q i = [] := by
  rw [h.head_eq hi, List.head?_eq_none_iff]

theorem length_le_total (h : Rep st A) {i : ℕ} (hi : i < A.num) :
    (A.q i).length ≤ st.pq.len.toNat := by
  rw [h.total]
  exact Finset.single_le_sum (f := fun i => (A.q i).length) (fun _ _ => Nat.zero_le _)
    (Finset.mem_range.mpr hi)

theorem length_lt_fuel (h : Rep st A) {i : ℕ} (hi : i < A.num) : (A.q i).length < pktqFuel := by
  rw [← h.len i hi]
  exact UInt16.toNat_lt _

/-- The queue is empty exactly when its length is 0. -/
theorem len_eq_zero (h : Rep st A) : st.pq.len = 0 ↔ ∀ i < A.num, A.q i = [] := by
  rw [← UInt16.toNat_inj, h.total]
  simp [Finset.sum_eq_zero_iff]

/-- The lengths after one packet less. -/
theorem len_pred (h : Rep st A) {i : ℕ} (hi : i < A.num) (hne : A.q i ≠ []) :
    ((st.pq.q i).len - 1).toNat + 1 = (A.q i).length ∧ (st.pq.len - 1).toNat + 1 = st.pq.len.toNat := by
  have hpos := List.length_pos_of_ne_nil hne
  have h1 := h.len i hi
  have h2 := h.length_le_total hi
  exact ⟨by rw [toNat_pred (by omega), h1], toNat_pred (by omega)⟩

/-! ### Enqueueing -/

/-- What an enqueue at `prec` may rely on, read off its assertions. -/
theorem canEnq (h : Rep st A) {prec : ℕ} {p : Pkt} (hc : st.CanEnq prec p) :
    prec < A.num ∧ st.link p = none ∧ (st.pq.len + 1).toNat = st.pq.len.toNat + 1 ∧
      ((st.pq.q prec).len + 1).toNat = (A.q prec).length + 1 ∧
      st.pq.hiPrec.toNat ≤ (raiseHi st.pq.hiPrec prec).toNat ∧
      (raiseHi st.pq.hiPrec prec).toNat < A.num ∧ prec ≤ (raiseHi st.pq.hiPrec prec).toNat := by
  obtain ⟨hprec, hlink, hfull, hpfull⟩ := hc
  have hprec' : prec < A.num := h.num ▸ hprec
  have hhi := h.hi_lt
  have hraise : (raiseHi st.pq.hiPrec prec).toNat = max st.pq.hiPrec.toNat prec := by
    have h16 : A.num ≤ 16 := h.num_le
    unfold raiseHi
    split_ifs with hlt
    · rw [UInt16.toNat_ofNat']
      omega
    · omega
  refine ⟨hprec', hlink, toNat_succ hfull, ?_, ?_, ?_, ?_⟩
  · rw [toNat_succ hpfull, h.len prec hprec']
  · omega
  · omega
  · omega

section
variable [DecidableEq Pkt]

theorem pktqPenq_spec (h : Rep st A) {prec : ℕ} {p : Pkt} (hc : st.CanEnq prec p)
    (hp : ∀ j < A.num, p ∉ A.q j) :
    ∃ st', pktqPenq st prec p = some st' ∧ Rep st' (A.set prec (A.q prec ++ [p])) := by
  obtain ⟨hprec, hlink, hlen, hplen, hhi, hhi', hne⟩ := h.canEnq hc
  have hchain := h.chain prec hprec
  have htail := h.tail prec hprec
  have hlenp : (A.q prec ++ [p]).length = (A.q prec).length + 1 := by simp
  have hnew : ∀ x ∈ A.q prec ++ [p], x ∈ A.q prec ∨ ∀ j < A.num, x ∉ A.q j := by
    intro x hx
    rcases List.mem_append.mp hx with hx | hx
    · exact Or.inl hx
    · exact Or.inr (List.mem_singleton.mp hx ▸ hp)
  unfold pktqPenq
  rw [if_pos hc]
  rcases List.eq_nil_or_concat (A.q prec) with hq | ⟨l, t, hq⟩
  · -- the first packet of its precedence
    rw [hq] at hchain
    have hhead : (st.pq.q prec).head = none := hchain
    simp only [hhead]
    refine ⟨_, rfl, h.set hprec rfl (fun _ _ _ _ _ => rfl) ?_ (by simp) (hplen.trans hlenp.symm)
      hnew (by omega) hhi hhi' fun _ => hne⟩
    rw [hq]
    exact ⟨rfl, hlink⟩
  · rw [List.concat_eq_append] at hq
    rw [hq] at hchain htail
    have htail' : (st.pq.q prec).tail = some t := by rw [htail]; simp
    obtain ⟨x, hx⟩ : ∃ x, (st.pq.q prec).head = some x := by
      rw [hchain.head_eq]
      cases l <;> exact ⟨_, rfl⟩
    have ht : t ∈ A.q prec := by rw [hq]; simp
    have htp : t ∉ [p] := by
      intro htm
      rw [List.mem_singleton] at htm
      exact hp prec hprec (htm ▸ ht)
    have hchain' : Linked (Function.update st.link t (some p)) (st.pq.q prec).head (l ++ [t, p]) :=
      hchain.graft ⟨rfl, hlink⟩ htp
    simp only [hx, htail', Option.map_some]
    refine ⟨_, rfl, h.set hprec rfl ?_ ?_ (by simp) (hplen.trans hlenp.symm)
      hnew (by omega) hhi hhi' fun _ => hne⟩
    · intro j hj hji y hy
      have hyt : y ≠ t := fun he => h.disjoint prec hprec j hj (Ne.symm hji) t ht (he ▸ hy)
      exact Function.update_of_ne hyt ..
    · rw [hq, List.append_assoc, ← hx]
      exact hchain'

theorem pktqPenqHead_spec (h : Rep st A) {prec : ℕ} {p : Pkt} (hc : st.CanEnq prec p)
    (hp : ∀ j < A.num, p ∉ A.q j) :
    ∃ st', pktqPenqHead st prec p = some st' ∧ Rep st' (A.set prec (p :: A.q prec)) := by
  obtain ⟨hprec, hlink, hlen, hplen, hhi, hhi', hne⟩ := h.canEnq hc
  have hlenp : (p :: A.q prec).length = (A.q prec).length + 1 := rfl
  unfold pktqPenqHead
  rw [if_pos hc]
  refine ⟨_, rfl, h.set hprec rfl ?_ ((h.chain prec hprec).push (hp prec hprec)) ?_
    (hplen.trans hlenp.symm) ?_ (by omega) hhi hhi' fun _ => hne⟩
  · intro j hj _ y hy
    have hyp : y ≠ p := fun he => hp j hj (he ▸ hy)
    exact Function.update_of_ne hyp ..
  · rw [List.getLast?_cons, h.tail prec hprec]
    by_cases h0 : (st.pq.q prec).head = none
    · rw [if_pos h0, (h.head_eq_none hprec).mp h0]
      rfl
    · have h0' : A.q prec ≠ [] := fun he => h0 ((h.head_eq_none hprec).mpr he)
      rw [if_neg h0, List.getLast?_eq_some_getLast h0']
      rfl
  · intro y hy
    rcases List.mem_cons.mp hy with rfl | hy
    · exact Or.inr hp
    · exact Or.inl hy

/-! ### Dequeueing -/

/-- A link of `i` written is followed by no other precedence. -/
theorem update_other (h : Rep st A) {i : ℕ} (hi : i < A.num) {t : Pkt} (ht : t ∈ A.q i)
    (x : Option Pkt) : ∀ j < A.num, j ≠ i → ∀ p ∈ A.q j, Function.update st.link t x p = st.link p := by
  intro j hj hji p hp
  have hpt : p ≠ t := fun he => h.disjoint i hi j hj (Ne.symm hji) t ht (he ▸ hp)
  exact Function.update_of_ne hpt ..

/-- The first element taken off the chain of `i`. -/
theorem pop_first (h : Rep st A) {i : ℕ} (hi : i < A.num) {p : Pkt} {l : List Pkt}
    (hq : A.q i = p :: l) : Rep
      { link := Function.update st.link p none
        pq := { st.pq.setq i { st.pq.q i with
            head := st.link p
            tail := if st.link p = none then none else (st.pq.q i).tail
            len := (st.pq.q i).len - 1 } with
          len := st.pq.len - 1 } } (A.set i l) := by
  have hchain := h.chain i hi
  have htail := h.tail i hi
  rw [hq] at hchain htail
  have hp : p ∉ l := (List.nodup_cons.mp hchain.nodup).1
  have hlink : st.link p = l.head? := hchain.2.head_eq
  obtain ⟨h1, h2⟩ := h.len_pred hi (by rw [hq]; simp)
  rw [hq, List.length_cons] at h1
  refine h.set hi rfl (h.update_other hi (by rw [hq]; simp) none) ?_ ?_ ?_ ?_ ?_ (le_refl _)
    h.hi_lt fun _ => h.le_hi i hi (by rw [hq]; simp)
  · exact hchain.2.update_of_notMem hp none
  · cases l with
    | nil => exact if_pos hlink
    | cons y ys =>
      simp only [hlink, List.head?_cons, reduceCtorEq, if_false, htail]
      exact List.getLast?_cons_cons
  · simp only
    omega
  · intro y hy
    exact Or.inl (by rw [hq]; exact List.mem_cons_of_mem _ hy)
  · rw [hq, List.length_cons]
    omega

theorem unlinkHead_spec (h : Rep st A) {i : ℕ} (hi : i < A.num) :
    ∃ st', unlinkHead st i = (st', (A.q i).head?) ∧ Rep st' (A.set i (A.q i).tail) := by
  unfold unlinkHead
  cases hq : A.q i with
  | nil =>
    have hset := A.set_eq_self i
    rw [hq] at hset
    simp only [(h.head_eq_none hi).mpr hq]
    exact ⟨st, rfl, by rw [List.tail_nil, hset]; exact h⟩
  | cons p l =>
    have hhead := h.head_eq hi
    rw [hq] at hhead
    simp only [hhead, List.head?_cons]
    exact ⟨_, rfl, h.pop_first hi hq⟩

/-- The walk to the tail ends there, with the packet before it. -/
theorem walkTail_eq {link : Pkt → Option Pkt} {t : Pkt} : ∀ {l : List Pkt} {fuel : ℕ}
    {prev o : Option Pkt}, Linked link o (l ++ [t]) → l.length < fuel →
    walkTail link (some t) fuel prev o = some (if l = [] then prev else l.getLast?, some t)
  | [], fuel + 1, prev, o, h, _ => by
    obtain ⟨rfl, -⟩ := h
    simp [walkTail]
  | x :: l, fuel + 1, prev, o, h, hf => by
    have hne : x ≠ t := by
      intro he
      have hnd := h.nodup
      simp [he] at hnd
    have hnext : walkTail link (some t) fuel (some x) (link x) =
        some (if l = [] then some x else l.getLast?, some t) := walkTail_eq h.2 (by simpa using hf)
    obtain ⟨rfl, -⟩ := h
    simp only [walkTail, Option.some.injEq, hne, if_false, hnext, List.cons_ne_nil]
    cases l with
    | nil => rfl
    | cons y l => rw [if_neg (List.cons_ne_nil y l), List.getLast?_cons_cons]

theorem unlinkTail_spec (h : Rep st A) {i : ℕ} (hi : i < A.num) :
    ∃ st', unlinkTail st i = some (st', (A.q i).getLast?) ∧ Rep st' (A.set i (A.q i).dropLast) ∧
      ∀ p, (A.q i).getLast? = some p → st'.link p = none := by
  unfold unlinkTail
  rcases List.eq_nil_or_concat (A.q i) with hq | ⟨l, t, hq⟩
  · have hset := A.set_eq_self i
    rw [hq] at hset
    simp only [(h.head_eq_none hi).mpr hq, hq, if_true]
    exact ⟨st, rfl, by rw [List.dropLast_nil, hset]; exact h, by simp⟩
  rw [List.concat_eq_append] at hq
  have hchain := h.chain i hi
  have htail := h.tail i hi
  have hfuel := h.length_lt_fuel hi
  obtain ⟨h1, h2⟩ := h.len_pred hi (by rw [hq]; simp)
  have hle := h.le_hi i hi (by rw [hq]; simp)
  have hlast : (l ++ [t]).getLast? = some t := by simp
  rw [hq] at hchain
  rw [hq, hlast] at htail
  rw [hq, List.length_append, List.length_singleton] at hfuel h1
  have hhead : (st.pq.q i).head ≠ none := by
    rw [Ne, h.head_eq_none hi, hq]
    simp
  have hnone : st.link t = none := hchain.link_eq
  simp only [if_neg hhead, htail, hq, hlast, List.dropLast_concat]
  rw [walkTail_eq hchain (by omega)]
  have htotal : (st.pq.len - 1).toNat + (A.q i).length = st.pq.len.toNat + l.length := by
    rw [hq, List.length_append, List.length_singleton]
    omega
  have hnew : ∀ p ∈ l, p ∈ A.q i ∨ ∀ j < A.num, p ∉ A.q j :=
    fun p hp => Or.inl (by rw [hq]; exact List.mem_append_left _ hp)
  rcases List.eq_nil_or_concat l with rfl | ⟨l', y, rfl⟩
  · -- the only packet
    refine ⟨_, rfl, h.set hi rfl (fun _ _ _ _ _ => rfl) ?_ rfl (by simpa using h1) hnew htotal
      (le_refl _) h.hi_lt fun _ => hle, ?_⟩
    · rfl
    · intro p hp
      cases hp
      exact hnone
  · rw [List.concat_eq_append] at *
    have hlast' : (l' ++ [y]).getLast? = some y := by simp
    have hy : y ∈ A.q i := by rw [hq]; simp
    have hyt : t ≠ y := by
      intro he
      have hnd := hchain.nodup
      rw [he, List.append_assoc, List.nodup_append] at hnd
      simp at hnd
    rw [List.append_assoc] at hchain
    have hchain' : Linked (Function.update st.link y none) (st.pq.q i).head (l' ++ [y]) :=
      hchain.graft rfl List.not_mem_nil
    simp only [hlast', Option.map_some]
    rw [if_neg (by simp)]
    refine ⟨_, rfl, h.set hi rfl (h.update_other hi hy none) ?_ hlast'.symm ?_ hnew htotal
      (le_refl _) h.hi_lt fun _ => hle, ?_⟩
    · exact hchain'
    · simp only
      omega
    · intro p hp
      cases hp
      simp only
      rw [Function.update_of_ne hyt, hnone]

/-- The flush loop over the chain `l`: its links are cleared and its packets
freed, the lengths are less by as many. -/
theorem pflushLoop_eq (i : ℕ) : ∀ {l : List Pkt} {fuel : ℕ} {st : PktqSt Pkt},
    Linked st.link (st.pq.q i).head l → l.length < fuel → l.length ≤ (st.pq.q i).len.toNat →
    l.length ≤ st.pq.len.toNat →
    ∃ link len len', pflushLoop i fuel st (st.pq.q i).head =
        some (⟨link, { st.pq.setq i { st.pq.q i with head := none, len := len } with len := len' }⟩,
          l) ∧
      len.toNat + l.length = (st.pq.q i).len.toNat ∧ len'.toNat + l.length = st.pq.len.toNat ∧
      ∀ p, p ∉ l → link p = st.link p
  | [], fuel + 1, st, h, _, _, _ => by
    have hhead : (st.pq.q i).head = none := h
    have hst : st = ⟨st.link, { st.pq.setq i { st.pq.q i with head := none } with
        len := st.pq.len }⟩ := by
      have hq : { st.pq.q i with head := none } = st.pq.q i := by rw [← hhead]
      rw [hq, Pktq.setq, Function.update_eq_self]
    refine ⟨st.link, (st.pq.q i).len, st.pq.len, ?_, rfl, rfl, fun _ _ => rfl⟩
    rw [hhead, pflushLoop]
    exact congrArg (fun s => some (s, [])) hst
  | p :: l, fuel + 1, st, h, hf, h1, h2 => by
    have hhead := h.1
    have hp : p ∉ l := (List.nodup_cons.mp h.nodup).1
    rw [List.length_cons] at h1 h2
    have hq := toNat_pred (a := (st.pq.q i).len) (by omega)
    have hpq := toNat_pred (a := st.pq.len) (by omega)
    rw [hhead, pflushLoop]
    simp only
    set st₁ : PktqSt Pkt := ⟨Function.update st.link p none, { st.pq.setq i { st.pq.q i with
      head := st.link p, len := (st.pq.q i).len - 1 } with len := st.pq.len - 1 }⟩ with hst₁
    have hq₁ : st₁.pq.q i = { st.pq.q i with head := st.link p, len := (st.pq.q i).len - 1 } :=
      Function.update_self ..
    have hpq₁ : st₁.pq.len = st.pq.len - 1 := rfl
    have hchain : Linked st₁.link (st₁.pq.q i).head l := by
      rw [hq₁]
      exact h.2.update_of_notMem hp none
    obtain ⟨link, len, len', hloop, hl, hl', hlink⟩ := pflushLoop_eq i hchain
      (by simpa using hf : l.length < fuel) (by rw [hq₁]; simp only; omega) (by rw [hpq₁]; omega)
    rw [hq₁] at hloop hl
    rw [hpq₁] at hl'
    refine ⟨link, len, len', ?_, ?_, ?_, ?_⟩
    · rw [hloop]
      simp [hst₁, Pktq.setq]
    · simp only at hl
      rw [List.length_cons]
      omega
    · rw [List.length_cons]
      omega
    · intro y hy
      rw [List.mem_cons, not_or] at hy
      rw [hlink y hy.2, hst₁]
      exact Function.update_of_ne hy.1 ..

theorem pktqPflush_spec (h : Rep st A) {i : ℕ} (hi : i < A.num) :
    ∃ st', pktqPflush st i = some (st', A.q i) ∧ Rep st' (A.set i []) := by
  have hfuel := h.length_lt_fuel hi
  have hlen := h.len i hi
  obtain ⟨link, len, len', hloop, hl, hl', hlink⟩ := pflushLoop_eq i (h.chain i hi) hfuel
    (le_of_eq hlen.symm) (h.length_le_total hi)
  have hzero : len = 0 := UInt16.toNat_inj.mp (show len.toNat = 0 by omega)
  subst hzero
  unfold pktqPflush
  rw [hloop]
  simp only [Pktq.setq, Function.update_self, if_true, Function.update_idem]
  refine ⟨_, rfl, h.set hi rfl ?_ rfl rfl rfl (by simp) (by simpa using hl') (le_refl _) h.hi_lt
    fun hne => absurd rfl hne⟩
  intro j hj hji p hp
  exact hlink p (h.disjoint j hj i hi hji p hp)

/-! ### Deleting -/

/-- The search for the packet before `x` finds it, -/
theorem findPrev_eq {link : Pkt → Option Pkt} {x t : Pkt} {r : List Pkt} : ∀ {l : List Pkt}
    {fuel : ℕ} {o : Option Pkt}, Linked link o (l ++ t :: x :: r) → l.length < fuel →
    findPrev link x fuel o = some (some t)
  | [], fuel + 1, o, h, _ => by
    obtain ⟨rfl, hx, -⟩ := h
    rw [findPrev, if_pos hx]
  | y :: l, fuel + 1, o, h, hf => by
    have hnext : link y = (l ++ t :: x :: r).head? := h.2.head_eq
    have hne : link y ≠ some x := by
      have hnd := h.2.nodup
      rw [hnext]
      intro he
      cases l with
      | nil =>
        cases he
        simp at hnd
      | cons z l =>
        cases he
        simp at hnd
    obtain ⟨rfl, h2⟩ := h
    rw [findPrev, if_neg hne, findPrev_eq h2 (by simpa using hf)]

/-- and there is none where the chain does not have `x`. -/
theorem findPrev_eq_none {link : Pkt → Option Pkt} {x : Pkt} : ∀ {l : List Pkt} {fuel : ℕ}
    {o : Option Pkt}, Linked link o l → x ∉ l → l.length < fuel → findPrev link x fuel o = some none
  | [], fuel + 1, o, h, _, _ => by
    rw [show o = none from h, findPrev]
  | y :: l, fuel + 1, o, h, hx, hf => by
    have hne : link y ≠ some x := by
      rw [h.2.head_eq]
      exact fun he => hx (List.mem_cons_of_mem _ (List.mem_of_head? he))
    obtain ⟨rfl, h2⟩ := h
    rw [findPrev, if_neg hne, findPrev_eq_none h2 (fun hm => hx (List.mem_cons_of_mem _ hm))
      (by simpa using hf)]

theorem pktqPdel_spec (h : Rep st A) {i : ℕ} (hi : i < A.num) (x : Pkt) :
    ∃ st', pktqPdel st (some x) i = some (st', decide (x ∈ A.q i)) ∧
      Rep st' (if x ∈ A.q i then A.set i ((A.q i).erase x) else A) := by
  have hfuel := h.length_lt_fuel hi
  have hchain := h.chain i hi
  unfold pktqPdel
  rw [if_pos (h.num ▸ hi)]
  simp only
  by_cases hx : x ∈ A.q i
  swap
  · -- not there: the head is another packet, and so is every link
    have hhead : (st.pq.q i).head ≠ some x := by
      rw [h.head_eq hi]
      exact fun he => hx (List.mem_of_head? he)
    rw [if_neg hhead, findPrev_eq_none hchain hx hfuel, if_neg hx]
    exact ⟨st, by simp [hx], h⟩
  obtain ⟨h1, h2⟩ := h.len_pred hi (List.ne_nil_of_mem hx)
  have hle := h.le_hi i hi (List.ne_nil_of_mem hx)
  obtain ⟨l, r, hq⟩ := List.append_of_mem hx
  rw [if_pos hx]
  rcases List.eq_nil_or_concat l with rfl | ⟨l', t, rfl⟩
  · rw [List.nil_append] at hq
    have hhead : (st.pq.q i).head = some x := by rw [h.head_eq hi, hq]; rfl
    rw [if_pos hhead, hq, List.erase_cons_head]
    exact ⟨_, by simp, h.pop_first hi hq⟩
  · rw [List.concat_eq_append, List.append_assoc, List.singleton_append] at hq
    have htail := h.tail i hi
    rw [hq] at hchain htail hfuel h1
    have hnd := hchain.nodup
    have hxl : x ∉ l' ++ [t] := by
      intro hm
      rw [← List.singleton_append, ← List.append_assoc] at hnd
      exact (List.nodup_append.mp hnd).2.2 x hm x List.mem_cons_self rfl
    have hxr : x ∉ r := by
      have hs := (List.nodup_append.mp hnd).2.1
      exact (List.nodup_cons.mp (List.nodup_cons.mp hs).2).1
    have htr : t ∉ r := by
      have hs := (List.nodup_append.mp hnd).2.1
      exact fun hm => (List.nodup_cons.mp hs).1 (List.mem_cons_of_mem _ hm)
    have ht : t ∈ A.q i := by rw [hq]; simp
    have hxt : t ≠ x := fun he => hxl (by rw [he]; simp)
    have hhead : (st.pq.q i).head ≠ some x := by
      rw [hchain.head_eq]
      intro he
      cases l' with
      | nil => exact hxt (Option.some.inj he)
      | cons y l' => exact hxl (by rw [← Option.some.inj he]; simp)
    have herase : (A.q i).erase x = l' ++ t :: r := by
      rw [hq, ← List.singleton_append, ← List.append_assoc, List.erase_append_right _ hxl,
        List.erase_cons_head, List.append_assoc, List.singleton_append]
    have hrest : Linked st.link (st.link x) r := by
      rw [← List.singleton_append, ← List.append_assoc] at hchain
      exact hchain.suffix.2
    rw [List.length_append, List.length_cons, List.length_cons] at hfuel h1
    rw [if_neg hhead, findPrev_eq hchain (by omega), herase]
    rw [decide_eq_true hx]
    refine ⟨_, rfl, h.set hi rfl ?_ ?_ ?_ ?_ ?_ ?_ (le_refl _) h.hi_lt fun _ => hle⟩
    · intro j hj hji p hp
      have hpx : p ≠ x := fun he => h.disjoint i hi j hj (Ne.symm hji) x hx (he ▸ hp)
      rw [Function.update_of_ne hpx]
      exact h.update_other hi ht _ j hj hji p hp
    · refine (hchain.graft hrest htr).update_of_notMem ?_ none
      rw [List.mem_append, List.mem_cons]
      rw [List.mem_append, List.mem_singleton] at hxl
      tauto
    · simp only [htail]
      cases r with
      | nil => simp
      | cons y r =>
        have hlast : (l' ++ t :: x :: y :: r).getLast? = (y :: r).getLast? := by
          rw [List.getLast?_append_of_ne_nil _ (by simp), List.getLast?_cons_cons,
            List.getLast?_cons_cons]
        have hlast' : (l' ++ t :: y :: r).getLast? = (y :: r).getLast? := by
          rw [List.getLast?_append_of_ne_nil _ (by simp), List.getLast?_cons_cons]
        rw [hlast, hlast', if_neg]
        intro he
        exact hxr (List.mem_of_getLast? he)
    · rw [List.length_append, List.length_cons]
      simp only
      omega
    · intro p hp
      refine Or.inl ?_
      rw [hq]
      simp only [List.mem_append, List.mem_cons] at hp ⊢
      tauto
    · rw [hq]
      simp only [List.length_append, List.length_cons]
      omega

end

/-! ### Finding a precedence -/

/-- The hint lowered is still at least every precedence that has a packet, and
it is one itself if any is. -/
theorem lowerHi_spec (q : ℕ → PktqPrec Pkt) : ∀ hi : ℕ, lowerHi q hi ≤ hi ∧
    (∀ j, j ≤ hi → (q j).head ≠ none → j ≤ lowerHi q hi) ∧
    (lowerHi q hi ≠ 0 → (q (lowerHi q hi)).head ≠ none)
  | 0 => by simp [lowerHi]
  | hi + 1 => by
    obtain ⟨h1, h2, h3⟩ := lowerHi_spec q hi
    unfold lowerHi
    split_ifs with h0
    · refine ⟨by omega, fun j hj hne => ?_, h3⟩
      have hj' : j ≠ hi + 1 := fun he => hne (he ▸ h0)
      exact h2 j (by omega) hne
    · exact ⟨le_refl _, fun j hj _ => hj, fun _ => h0⟩

theorem nonempty_iff (h : Rep st A) {i : ℕ} (hi : i < A.num) :
    A.nonempty i = true ↔ (st.pq.q i).head ≠ none := by
  rw [Fifos.nonempty_eq_true]
  exact not_congr (h.head_eq_none hi).symm

/-- With a packet in the queue, lowering the hint finds the highest
precedence that has one, and leaves the queue as it is. -/
theorem lower_spec (h : Rep st A) (hlen : st.pq.len ≠ 0) :
    Rep st.lower.1 A ∧ Fifos.highest A.nonempty A.num = some st.lower.2 := by
  obtain ⟨h1, h2, h3⟩ := lowerHi_spec st.pq.q st.pq.hiPrec.toNat
  have hhi := h.hi_lt
  have h16 : A.num ≤ 16 := h.num_le
  have hto : (UInt16.ofNat (lowerHi st.pq.q st.pq.hiPrec.toNat)).toNat =
      lowerHi st.pq.q st.pq.hiPrec.toNat := by
    rw [UInt16.toNat_ofNat']
    omega
  have hle : ∀ i < A.num, A.q i ≠ [] → i ≤ lowerHi st.pq.q st.pq.hiPrec.toNat := by
    intro i hi hne
    refine h2 i (h.le_hi i hi hne) fun h0 => hne ((h.head_eq_none hi).mp h0)
  constructor
  · refine { h with hi_lt := ?_, le_hi := ?_ }
    · show (UInt16.ofNat (lowerHi st.pq.q st.pq.hiPrec.toNat)).toNat < A.num
      omega
    · intro i hi hne
      show i ≤ (UInt16.ofNat (lowerHi st.pq.q st.pq.hiPrec.toNat)).toNat
      rw [hto]
      exact hle i hi hne
  · rw [Fifos.highest_eq_some]
    show lowerHi st.pq.q st.pq.hiPrec.toNat < A.num ∧
      A.nonempty (lowerHi st.pq.q st.pq.hiPrec.toNat) = true ∧ _
    refine ⟨by omega, ?_, fun j hj hP => hle j hj (Fifos.nonempty_eq_true.mp hP)⟩
    -- some precedence has a packet, and it is not above the lowered hint
    obtain ⟨i, hi, hne⟩ : ∃ i, i < A.num ∧ A.q i ≠ [] := by
      by_contra hno
      push Not at hno
      exact hlen (h.len_eq_zero.mpr hno)
    rw [h.nonempty_iff (by omega)]
    by_cases h0 : lowerHi st.pq.q st.pq.hiPrec.toNat = 0
    · have hi0 : i = 0 := by
        have := hle i hi hne
        omega
      rw [h0, ← hi0, Ne, h.head_eq_none hi]
      exact hne
    · exact h3 h0

/-- The hint as it is written back. -/
theorem lower_hiPrec (h : Rep st A) (hlen : st.pq.len ≠ 0) : st.lower.1.pq.hiPrec.toNat = st.lower.2 := by
  have hlt := (Fifos.highest_eq_some.mp (h.lower_spec hlen).2).1
  have h16 : A.num ≤ 16 := h.num_le
  show (UInt16.ofNat st.lower.2).toNat = st.lower.2
  rw [UInt16.toNat_ofNat']
  omega

/-- Without a packet there is no such precedence. -/
theorem nonempty_of_len (h : Rep st A) (hlen : st.pq.len = 0) : ∀ i < A.num, A.nonempty i = false := by
  intro i hi
  rw [Fifos.nonempty, h.len_eq_zero.mp hlen i hi]
  rfl

theorem lowestHead_spec (q : ℕ → PktqPrec Pkt) : ∀ k prec : ℕ, prec ≤ lowestHead q k prec ∧
    lowestHead q k prec ≤ prec + k ∧
    (∀ j, prec ≤ j → j < lowestHead q k prec → (q j).head = none) ∧
    (lowestHead q k prec ≠ prec + k → (q (lowestHead q k prec)).head ≠ none)
  | 0, prec => by
    refine ⟨le_refl _, le_refl _, fun j h1 h2 => ?_, fun h => absurd rfl h⟩
    have h2' : j < prec := h2
    omega
  | k + 1, prec => by
    obtain ⟨h1, h2, h3, h4⟩ := lowestHead_spec q k (prec + 1)
    unfold lowestHead
    split_ifs with h0
    · refine ⟨by omega, by omega, fun j hj hj' => ?_, fun hne => h4 (by omega)⟩
      by_cases he : j = prec
      · rw [he, h0]
      · exact h3 j (by omega) hj'
    · exact ⟨le_refl _, by omega, fun j hj hj' => by omega, fun _ => h0⟩

/-- With a packet in the queue, the upward search finds the lowest precedence
that has one. -/
theorem lowest_spec (h : Rep st A) (hlen : st.pq.len ≠ 0) :
    Fifos.lowest A.nonempty A.num = some (lowestHead st.pq.q st.pq.hiPrec.toNat 0) := by
  obtain ⟨-, h2, h3, h4⟩ := lowestHead_spec st.pq.q st.pq.hiPrec.toNat 0
  have hhi := h.hi_lt
  rw [Nat.zero_add] at h2 h4
  obtain ⟨i, hi, hne⟩ : ∃ i, i < A.num ∧ A.q i ≠ [] := by
    by_contra hno
    push Not at hno
    exact hlen (h.len_eq_zero.mpr hno)
  have hnone : ∀ j < lowestHead st.pq.q st.pq.hiPrec.toNat 0, A.nonempty j = false := by
    intro j hj
    rw [← Bool.not_eq_true, h.nonempty_iff (by omega)]
    exact fun hn => hn (h3 j (Nat.zero_le _) hj)
  rw [Fifos.lowest_eq_some]
  refine ⟨by omega, ?_, hnone⟩
  by_cases hend : lowestHead st.pq.q st.pq.hiPrec.toNat 0 = st.pq.hiPrec.toNat
  · -- the search came to the hint: the packet must be there
    have hile := h.le_hi i hi hne
    have hie : i = st.pq.hiPrec.toNat := by
      by_contra hlt
      have hf := hnone i (by omega)
      rw [← Bool.not_eq_true, Fifos.nonempty_eq_true] at hf
      exact hf hne
    rw [hend, ← hie, Fifos.nonempty_eq_true]
    exact hne
  · rw [h.nonempty_iff (by omega)]
    exact h4 hend

theorem mdeqLoop_eq (q : ℕ → PktqPrec Pkt) (precBmp : UInt32) : ∀ hi : ℕ,
    mdeqLoop q precBmp hi =
      Fifos.highest (fun i => inBmp precBmp i && decide ((q i).head ≠ none)) (hi + 1)
  | 0 => by
    unfold mdeqLoop Fifos.highest
    split_ifs with h1 h2 <;> simp_all [Fifos.highest]
  | hi + 1 => by
    rw [mdeqLoop, Fifos.highest, mdeqLoop_eq q precBmp hi]
    split_ifs with h1 h2 <;> simp_all

/-- The masked search below the hint is the search over all precedences. -/
theorem mdeqLoop_spec (h : Rep st A) (precBmp : UInt32) :
    mdeqLoop st.pq.q precBmp st.pq.hiPrec.toNat =
      Fifos.highest (fun i => inBmp precBmp i && A.nonempty i) A.num := by
  have hhi := h.hi_lt
  have hP : ∀ i < A.num, (inBmp precBmp i && decide ((st.pq.q i).head ≠ none)) =
      (inBmp precBmp i && A.nonempty i) := by
    intro i hi
    have hiff := h.nonempty_iff hi
    rw [Bool.eq_iff_iff, Bool.and_eq_true, Bool.and_eq_true, decide_eq_true_iff, hiff]
  rw [mdeqLoop_eq]
  cases hs : Fifos.highest (fun i => inBmp precBmp i && A.nonempty i) A.num with
  | none =>
    rw [Fifos.highest_eq_none] at hs ⊢
    intro j hj
    rw [hP j (by omega)]
    exact hs j (by omega)
  | some i =>
    rw [Fifos.highest_eq_some] at hs ⊢
    obtain ⟨h1, h2, h3⟩ := hs
    have hle : i ≤ st.pq.hiPrec.toNat :=
      h.le_hi i h1 (Fifos.nonempty_eq_true.mp (Bool.and_eq_true_iff.mp h2).2)
    refine ⟨by omega, by rw [hP i h1]; exact h2, fun j hj hPj => h3 j (by omega) ?_⟩
    rw [← hP j (by omega)]
    exact hPj

/-! ### Counting, flushing and the limit -/

/-- Above the hint there is nothing to count. -/
theorem pktqMlen_spec (h : Rep st A) (precBmp : UInt32) : pktqMlen st precBmp =
    ∑ i ∈ (Finset.range A.num).filter (inBmp precBmp ·), (A.q i).length := by
  have hfold : ∀ n, (List.range n).foldl
      (fun len prec => if inBmp precBmp prec then len + (st.pq.q prec).len.toNat else len) 0 =
        ∑ i ∈ Finset.range n, if inBmp precBmp i then (st.pq.q i).len.toNat else 0 := by
    intro n
    induction n with
    | zero => rfl
    | succ n ih =>
      rw [List.range_succ, List.foldl_append, ih, Finset.sum_range_succ]
      simp only [List.foldl_cons, List.foldl_nil]
      split_ifs <;> rfl
  have hhi := h.hi_lt
  rw [pktqMlen, hfold, Finset.sum_filter]
  have hcongr : ∑ i ∈ Finset.range (st.pq.hiPrec.toNat + 1),
      (if inBmp precBmp i then (st.pq.q i).len.toNat else 0) =
        ∑ i ∈ Finset.range (st.pq.hiPrec.toNat + 1),
          if inBmp precBmp i then (A.q i).length else 0 := by
    refine Finset.sum_congr rfl fun i hi => ?_
    rw [h.len i (by have := Finset.mem_range.mp hi; omega)]
  rw [hcongr]
  apply Finset.sum_subset
  · intro i hi
    rw [Finset.mem_range] at hi ⊢
    omega
  · intro i hi hi'
    rw [Finset.mem_range] at hi hi'
    have hempty : A.q i = [] := by
      by_contra hne
      exact hi' (Nat.lt_succ_of_le (h.le_hi i hi hne))
    simp [hempty]

/-- Another limit for all precedences. -/
theorem setmax (h : Rep st A) (max : UInt16) : Rep
    { st with
      pq := { st.pq with
        max := max
        q := fun prec => if prec < st.pq.numPrec.toNat then { st.pq.q prec with max := max }
          else st.pq.q prec } } { A with max := max } := by
  have hlt : ∀ i < A.num, i < st.pq.numPrec.toNat := fun i hi => h.num ▸ hi
  refine { h with chain := ?_, tail := ?_, len := ?_, plimit := ?_, limit := rfl }
  · intro i hi
    simp only [if_pos (hlt i hi)]
    exact h.chain i hi
  · intro i hi
    simp only [if_pos (hlt i hi)]
    exact h.tail i hi
  · intro i hi
    simp only [if_pos (hlt i hi)]
    exact h.len i hi
  · intro i hi
    simp only [if_pos (hlt i hi)]

variable [DecidableEq Pkt]

/-- The precedences from `prec` on flushed. -/
theorem flushLoop_spec : ∀ (k prec : ℕ) {st : PktqSt Pkt} {A : Fifos Pkt}, Rep st A →
    prec + k = A.num → ∃ st', flushLoop k prec st = some (st', (List.range' prec k).flatMap A.q) ∧
      Rep st' { A with q := fun j => if prec ≤ j ∧ j < A.num then [] else A.q j }
  | 0, prec, st, A, h, hk => by
    refine ⟨st, rfl, ?_⟩
    have hq : (fun j => if prec ≤ j ∧ j < A.num then [] else A.q j) = A.q := by
      funext j
      rw [if_neg (by omega)]
    rw [hq]
    exact h
  | k + 1, prec, st, A, h, hk => by
    obtain ⟨st₁, hp, h₁⟩ := h.pktqPflush_spec (show prec < A.num by omega)
    obtain ⟨st', hloop, h'⟩ := flushLoop_spec k (prec + 1) h₁ (by rw [Fifos.set_num]; omega)
    have hfreed : (List.range' (prec + 1) k).flatMap (A.set prec []).q =
        (List.range' (prec + 1) k).flatMap A.q := by
      refine List.flatMap_congr fun j hj => A.set_of_ne ?_ []
      have := List.mem_range'_1.mp hj
      omega
    have hq : (fun j => if prec + 1 ≤ j ∧ j < A.num then [] else (A.set prec []).q j) =
        fun j => if prec ≤ j ∧ j < A.num then [] else A.q j := by
      funext j
      by_cases hj : j = prec
      · subst hj
        rw [if_neg (by omega), if_pos (by omega), A.set_self]
      · rw [A.set_of_ne hj]
        by_cases hlt : prec ≤ j ∧ j < A.num
        · rw [if_pos hlt, if_pos (by omega)]
        · rw [if_neg hlt, if_neg (by omega)]
    refine ⟨st', ?_, ?_⟩
    · rw [flushLoop, hp]
      simp only [hloop, hfreed, Option.map_some, List.range'_succ, List.flatMap_cons]
    · rw [← hq]
      exact h'

/-! ### The calls on all precedences -/

/-- The oldest packet taken at a precedence that has one. -/
theorem takeFirst_spec (h : Rep st A) {i : ℕ} (hi : i < A.num) (hne : A.nonempty i = true) :
    ∃ st', unlinkHead st i = (st', (A.takeFirst i).2.1) ∧ (A.takeFirst i).2.1.map (fun _ => i) = (A.takeFirst i).2.2 ∧
      Rep st' (A.takeFirst i).1 := by
  obtain ⟨st', hs, h'⟩ := h.unlinkHead_spec hi
  obtain ⟨p, l, hq⟩ := List.exists_cons_of_ne_nil (Fifos.nonempty_eq_true.mp hne)
  exact ⟨st', hs, by simp [Fifos.takeFirst, hq], h'⟩

theorem pktqDeq_spec (h : Rep st A) :
    (A.step .deq).2 = .pkt (pktqDeq st).2 ∧ Rep (pktqDeq st).1 (A.step .deq).1 := by
  simp only [pktqDeq, Fifos.step]
  by_cases hlen : st.pq.len = 0
  · rw [if_pos hlen, Fifos.highest_eq_none.mpr (h.nonempty_of_len hlen)]
    exact ⟨rfl, h⟩
  · obtain ⟨hl, hi⟩ := h.lower_spec hlen
    obtain ⟨hlt, hne, -⟩ := Fifos.highest_eq_some.mp hi
    obtain ⟨st', hs, hat, h'⟩ := hl.takeFirst_spec hlt hne
    rw [if_neg hlen, hi]
    simp only [hs, hat, true_and]
    exact h'

theorem pktqDeqTail_spec (h : Rep st A) : ∃ st' r, pktqDeqTail st = some (st', r) ∧
    (A.step .deqTail).2 = .pkt r ∧ Rep st' (A.step .deqTail).1 := by
  simp only [pktqDeqTail, Fifos.step]
  by_cases hlen : st.pq.len = 0
  · rw [if_pos hlen, Fifos.lowest_eq_none.mpr (h.nonempty_of_len hlen)]
    exact ⟨st, _, rfl, rfl, h⟩
  · have hi := h.lowest_spec hlen
    obtain ⟨hlt, hne, -⟩ := Fifos.lowest_eq_some.mp hi
    obtain ⟨st', hs, h', hnone⟩ := h.unlinkTail_spec hlt
    obtain ⟨p, hp⟩ : ∃ p, (A.q (lowestHead st.pq.q st.pq.hiPrec.toNat 0)).getLast? = some p :=
      ⟨_, List.getLast?_eq_some_getLast (Fifos.nonempty_eq_true.mp hne)⟩
    -- the link of the packet is NULL already
    have hself : Function.update st'.link p none = st'.link := by
      rw [← hnone p hp, Function.update_eq_self]
    rw [if_neg hlen, hi, hs]
    refine ⟨st', (some p, some (lowestHead st.pq.q st.pq.hiPrec.toNat 0)), ?_, ?_, h'⟩
    · simp only [hp, hself, Option.map_some]
    · simp only [Fifos.takeLast, hp]

theorem pktqPeek_spec (h : Rep st A) :
    (A.step .peek).2 = .pkt (pktqPeek st).2 ∧ Rep (pktqPeek st).1 (A.step .peek).1 := by
  simp only [pktqPeek, Fifos.step]
  by_cases hlen : st.pq.len = 0
  · rw [if_pos hlen, Fifos.highest_eq_none.mpr (h.nonempty_of_len hlen)]
    exact ⟨rfl, h⟩
  · obtain ⟨hl, hi⟩ := h.lower_spec hlen
    obtain ⟨hlt, -, -⟩ := Fifos.highest_eq_some.mp hi
    rw [if_neg hlen, hi]
    simp only [hl.head_eq hlt]
    exact ⟨rfl, hl⟩

theorem pktqPeekTail_spec (h : Rep st A) :
    (A.step .peekTail).2 = .pkt (pktqPeekTail st).2 ∧ Rep (pktqPeekTail st).1 (A.step .peekTail).1 := by
  simp only [pktqPeekTail, Fifos.step]
  by_cases hlen : st.pq.len = 0
  · rw [if_pos hlen, Fifos.lowest_eq_none.mpr (h.nonempty_of_len hlen)]
    exact ⟨rfl, h⟩
  · have hi := h.lowest_spec hlen
    obtain ⟨hlt, -, -⟩ := Fifos.lowest_eq_some.mp hi
    rw [if_neg hlen, hi, h.tail _ hlt]
    exact ⟨rfl, h⟩

theorem pktqMdeq_spec (h : Rep st A) (precBmp : UInt32) :
    (A.step (.mdeq precBmp)).2 = .pkt (pktqMdeq st precBmp).2 ∧
      Rep (pktqMdeq st precBmp).1 (A.step (.mdeq precBmp)).1 := by
  simp only [pktqMdeq, Fifos.step]
  by_cases hlen : st.pq.len = 0
  · have hno : Fifos.highest (fun i => inBmp precBmp i && A.nonempty i) A.num = none := by
      rw [Fifos.highest_eq_none]
      intro j hj
      rw [h.nonempty_of_len hlen j hj, Bool.and_false]
    rw [if_pos hlen, hno]
    exact ⟨rfl, h⟩
  · have hl := (h.lower_spec hlen).1
    have hloop := hl.mdeqLoop_spec precBmp
    rw [h.lower_hiPrec hlen] at hloop
    rw [if_neg hlen]
    simp only [hloop]
    cases hm : Fifos.highest (fun i => inBmp precBmp i && A.nonempty i) A.num with
    | none => exact ⟨rfl, hl⟩
    | some i =>
      obtain ⟨hlt, hne, -⟩ := Fifos.highest_eq_some.mp hm
      obtain ⟨st', hs, hat, h'⟩ := hl.takeFirst_spec hlt (Bool.and_eq_true_iff.mp hne).2
      simp only [hs, hat, true_and]
      exact h'

theorem pktqFlush_spec (h : Rep st A) : ∃ st', pktqFlush st = some (st', (List.range A.num).flatMap A.q) ∧
    Rep st' (A.step .flush).1 := by
  obtain ⟨st', hs, h'⟩ := Rep.flushLoop_spec st.pq.numPrec.toNat 0 h (by rw [Nat.zero_add, h.num])
  have hq : (fun j => if 0 ≤ j ∧ j < A.num then [] else A.q j) =
      fun j => if j < A.num then [] else A.q j := by
    funext j
    simp
  rw [hq] at h'
  have hzero : st'.pq.len = 0 := by
    rw [h'.len_eq_zero]
    intro i hi
    exact if_pos hi
  refine ⟨st', ?_, h'⟩
  simp only [pktqFlush, hs]
  rw [if_pos hzero, h.num, List.range_eq_range']

theorem pktqSetmax_spec (h : Rep st A) (maxLen : ℤ) :
    (A.step (.setmax maxLen)).2 = .int (pktqSetmax st maxLen).2.toNat ∧
      Rep (pktqSetmax st maxLen).1 (A.step (.setmax maxLen)).1 := by
  simp only [pktqSetmax, Fifos.step]
  split_ifs with h0
  · exact ⟨by rw [h.limit], h⟩
  · exact ⟨rfl, h.setmax _⟩

/-! ### Every call -/

end Rep

/-- The packet is in one of the chains of the queue. -/
def PktqSt.Queued (st : PktqSt Pkt) (p : Pkt) : Prop :=
  ∃ i < st.pq.numPrec.toNat, ∃ l, Linked st.link (st.pq.q i).head l ∧ p ∈ l

/-- What a caller has to keep to: the precedence exists; a packet enqueued is
in no chain, has no link, and the limits leave room for it. -/
def PktqSt.Legal (st : PktqSt Pkt) : PktqCall Pkt → Prop
  | .penq prec p => st.CanEnq prec p ∧ ¬ st.Queued p
  | .penqHead prec p => st.CanEnq prec p ∧ ¬ st.Queued p
  | c => c.InRange st.pq.numPrec.toNat

theorem Rep.not_mem_of_not_queued {st : PktqSt Pkt} {A : Fifos Pkt} (h : Rep st A) {p : Pkt}
    (hp : ¬ st.Queued p) : ∀ j < A.num, p ∉ A.q j :=
  fun j hj hm => hp ⟨j, h.num ▸ hj, A.q j, h.chain j hj, hm⟩

section
variable [DecidableEq Pkt]

/-- **A legal call of the queue does what it does to the FIFOs**, and answers
the same. -/
theorem step_refines {st : PktqSt Pkt} {A : Fifos Pkt} (h : Rep st A) {c : PktqCall Pkt}
    (hc : st.Legal c) : ∃ st', pktqStep st c = some (st', (A.step c).2) ∧ Rep st' (A.step c).1 := by
  cases c with
  | penq prec p =>
    obtain ⟨st', hs, h'⟩ := h.pktqPenq_spec hc.1 (h.not_mem_of_not_queued hc.2)
    exact ⟨st', by rw [pktqStep, hs]; rfl, h'⟩
  | penqHead prec p =>
    obtain ⟨st', hs, h'⟩ := h.pktqPenqHead_spec hc.1 (h.not_mem_of_not_queued hc.2)
    exact ⟨st', by rw [pktqStep, hs]; rfl, h'⟩
  | pdeq prec =>
    have hprec : prec < st.pq.numPrec.toNat := hc
    obtain ⟨st', hs, h'⟩ := h.unlinkHead_spec (h.num ▸ hprec)
    exact ⟨st', by rw [pktqStep, pktqPdeq, if_pos hprec, hs]; rfl, h'⟩
  | pdeqTail prec =>
    have hprec : prec < st.pq.numPrec.toNat := hc
    obtain ⟨st', hs, h', -⟩ := h.unlinkTail_spec (h.num ▸ hprec)
    exact ⟨st', by rw [pktqStep, pktqPdeqTail, if_pos hprec, hs]; rfl, h'⟩
  | pflush prec =>
    have hprec : prec < st.pq.numPrec.toNat := hc
    obtain ⟨st', hs, h'⟩ := h.pktqPflush_spec (h.num ▸ hprec)
    exact ⟨st', by rw [pktqStep, hs]; rfl, h'⟩
  | pdel pktbuf prec =>
    have hprec : prec < st.pq.numPrec.toNat := hc
    cases pktbuf with
    | none => exact ⟨st, by rw [pktqStep, pktqPdel, if_pos hprec]; rfl, h⟩
    | some x =>
      obtain ⟨st', hs, h'⟩ := h.pktqPdel_spec (h.num ▸ hprec) x
      refine ⟨st', ?_, ?_⟩
      · rw [pktqStep, hs, Fifos.step]
        split_ifs with hx <;> simp [hx]
      · rw [Fifos.step]
        split_ifs with hx
        · rwa [if_pos hx] at h'
        · rwa [if_neg hx] at h'
  | deq =>
    obtain ⟨hr, h'⟩ := h.pktqDeq_spec
    exact ⟨_, by rw [pktqStep, hr], h'⟩
  | deqTail =>
    obtain ⟨st', r, hs, hr, h'⟩ := h.pktqDeqTail_spec
    exact ⟨st', by rw [pktqStep, hs, hr]; rfl, h'⟩
  | peek =>
    obtain ⟨hr, h'⟩ := h.pktqPeek_spec
    exact ⟨_, by rw [pktqStep, hr], h'⟩
  | peekTail =>
    obtain ⟨hr, h'⟩ := h.pktqPeekTail_spec
    exact ⟨_, by rw [pktqStep, hr], h'⟩
  | mdeq precBmp =>
    obtain ⟨hr, h'⟩ := h.pktqMdeq_spec precBmp
    exact ⟨_, by rw [pktqStep, hr], h'⟩
  | mlen precBmp => exact ⟨st, by rw [pktqStep, h.pktqMlen_spec]; rfl, h⟩
  | flush =>
    obtain ⟨st', hs, h'⟩ := h.pktqFlush_spec
    exact ⟨st', by rw [pktqStep, hs]; rfl, h'⟩
  | setmax maxLen =>
    obtain ⟨hr, h'⟩ := h.pktqSetmax_spec maxLen
    exact ⟨_, by rw [pktqStep, hr], h'⟩

end

/-! ### Every run -/

/-- A legal call and its answer. -/
def PktqRun [DecidableEq Pkt] (st : PktqSt Pkt) (e : PktqCall Pkt × PktqRet Pkt) (st' : PktqSt Pkt) : Prop :=
  st.Legal e.1 ∧ pktqStep st e.1 = some (st', e.2)

/-- The FIFOs of a queue just initialised. -/
def Fifos.init (num : ℕ) (maxLen : ℤ) : Fifos Pkt :=
  ⟨num, UInt16.ofNat (maxLen % 2 ^ 16).toNat, fun _ => []⟩

theorem pktqInit_rep (link : Pkt → Option Pkt) (pq : Pktq Pkt) {num : ℕ} (hpos : 0 < num)
    (hle : num ≤ pktqMaxPrec) (maxLen : ℤ) :
    Rep ⟨link, pktqInit pq num maxLen⟩ (Fifos.init num maxLen) := by
  have h16 : num ≤ 16 := hle
  refine ⟨?_, hpos, hle, ?_, ?_, ?_, ?_, rfl, ?_, ?_, hpos, ?_⟩
  · show (UInt16.ofNat num).toNat = num
    rw [UInt16.toNat_ofNat']
    omega
  all_goals simp +contextual [Fifos.init, pktqInit, Linked]

theorem Legal.inRange {st : PktqSt Pkt} {c : PktqCall Pkt} (h : st.Legal c) :
    c.InRange st.pq.numPrec.toNat := by
  cases c with
  | penq prec p => exact h.1.1
  | penqHead prec p => exact h.1.1
  | _ => exact h

/-- **A run of legal calls** answers as the FIFOs do and leaves them represented, and what was
enqueued is held or was given back. -/
theorem run_refines [DecidableEq Pkt] (link : Pkt → Option Pkt) (pq : Pktq Pkt) {num : ℕ} (hpos : 0 < num)
    (hle : num ≤ pktqMaxPrec) (maxLen : ℤ) {es : List (PktqCall Pkt × PktqRet Pkt)}
    {st : PktqSt Pkt} (h : Run.Trace PktqRun ⟨link, pktqInit pq num maxLen⟩ es st) :
    ∃ A : Fifos Pkt, (Fifos.init num maxLen).run (es.map (·.1)) = (A, es.map (·.2)) ∧
      A.num = num ∧ Rep st A ∧
      (es.map fun e => e.1.given).sum = A.held + (es.map fun e => e.1.released e.2).sum := by
  refine h.inv (I := fun es st => ∃ A : Fifos Pkt,
    (Fifos.init num maxLen).run (es.map (·.1)) = (A, es.map (·.2)) ∧ A.num = num ∧ Rep st A ∧
      (es.map fun e => e.1.given).sum = A.held + (es.map fun e => e.1.released e.2).sum) ?_ ?_
  · refine ⟨_, rfl, rfl, pktqInit_rep link pq hpos hle maxLen, ?_⟩
    simp [Fifos.init, Fifos.held]
  · rintro es st e st' ⟨A, hrun, hnum, hrep, hcons⟩ ⟨hlegal, hstep⟩
    obtain ⟨st'', hs, hrep'⟩ := step_refines hrep hlegal
    rw [hstep] at hs
    obtain ⟨rfl, hret⟩ := Prod.mk.inj (Option.some.inj hs)
    have hc := A.step_conserves e.1 (hrep.num ▸ Legal.inRange hlegal)
    refine ⟨(A.step e.1).1, ?_, ?_, hrep', ?_⟩
    · rw [List.map_append, List.map_append, List.map_singleton, List.map_singleton,
        Fifos.run_snoc, hrun, hret]
    · rw [A.step_num, hnum]
    · rw [← hret] at hc
      calc (List.map (fun e => e.1.given) (es ++ [e])).sum
          = A.held + (es.map fun e => e.1.released e.2).sum + e.1.given := by
            simp [hcons]
        _ = A.held + e.1.given + (es.map fun e => e.1.released e.2).sum := by abel
        _ = (A.step e.1).1.held + e.1.released e.2 +
              (es.map fun e => e.1.released e.2).sum := by rw [hc]
        _ = (A.step e.1).1.held + (List.map (fun e => e.1.released e.2) (es ++ [e])).sum := by
            simp only [List.map_append, List.sum_append, List.map_cons, List.map_nil,
              List.sum_cons, List.sum_nil]
            abel

/-- **The packet queue refines an array of FIFOs.** After any run of legal
calls on a queue just initialised: its answers are those of the FIFOs; the
chain, tail and length of each precedence are those of its FIFO, the total
length is the sum of the lengths, and the hint is at least every precedence
that has a packet. What was enqueued is what is held together with what was
returned or freed. Every further legal call succeeds and answers as the FIFOs
do; a dequeue takes the oldest packet of the highest precedence that has one,
a dequeue at the tail the newest of the lowest, a masked dequeue the oldest of
the highest in the mask, and `pktq_mlen` counts the packets in the mask. -/
theorem pktq_refines_fifos [DecidableEq Pkt] (link : Pkt → Option Pkt) (pq : Pktq Pkt) {num : ℕ} (hpos : 0 < num)
    (hle : num ≤ pktqMaxPrec) (maxLen : ℤ) {es : List (PktqCall Pkt × PktqRet Pkt)}
    {st : PktqSt Pkt} (h : Run.Trace PktqRun ⟨link, pktqInit pq num maxLen⟩ es st) :
    ∃ A : Fifos Pkt, (Fifos.init num maxLen).run (es.map (·.1)) = (A, es.map (·.2)) ∧
      A.num = num ∧
      (∀ i < num, Linked st.link (st.pq.q i).head (A.q i) ∧
        (st.pq.q i).len.toNat = (A.q i).length ∧ (st.pq.q i).tail = (A.q i).getLast? ∧
        ((st.pq.q i).tail = none ↔ (st.pq.q i).head = none)) ∧
      st.pq.len.toNat = ∑ i ∈ Finset.range num, (st.pq.q i).len.toNat ∧
      (∀ i < num, (st.pq.q i).head ≠ none → i ≤ st.pq.hiPrec.toNat) ∧
      (es.map fun e => e.1.given).sum = A.held + (es.map fun e => e.1.released e.2).sum ∧
      (∀ c, st.Legal c → ∃ st', pktqStep st c = some (st', (A.step c).2)) ∧
      (∀ i < num, ∀ p l, A.q i = p :: l → (∀ j < num, i < j → A.q j = []) →
        ∃ st', pktqStep st .deq = some (st', .pkt (some p, some i))) ∧
      (∀ i < num, ∀ p l, A.q i = l ++ [p] → (∀ j < i, A.q j = []) →
        ∃ st', pktqStep st .deqTail = some (st', .pkt (some p, some i))) ∧
      (∀ bmp, ∀ i < num, ∀ p l, inBmp bmp i = true → A.q i = p :: l →
        (∀ j < num, i < j → inBmp bmp j = true → A.q j = []) →
        ∃ st', pktqStep st (.mdeq bmp) = some (st', .pkt (some p, some i))) ∧
      ∀ bmp, pktqMlen st bmp = ∑ i ∈ (Finset.range num).filter (inBmp bmp ·), (A.q i).length := by
  obtain ⟨A, hrun, hnum, hrep, hcons⟩ := run_refines link pq hpos hle maxLen h
  subst hnum
  have hstep : ∀ c, st.Legal c → ∃ st', pktqStep st c = some (st', (A.step c).2) := by
    intro c hc
    obtain ⟨st', hs, -⟩ := step_refines hrep hc
    exact ⟨st', hs⟩
  refine ⟨A, hrun, rfl, fun i hi => ⟨hrep.chain i hi, hrep.len i hi, hrep.tail i hi, ?_⟩, ?_, ?_,
    hcons, hstep, ?_, ?_, ?_, fun bmp => hrep.pktqMlen_spec bmp⟩
  · rw [hrep.tail i hi, hrep.head_eq_none hi, List.getLast?_eq_none_iff]
  · rw [hrep.total]
    exact Finset.sum_congr rfl fun i hi => (hrep.len i (Finset.mem_range.mp hi)).symm
  · intro i hi hne
    exact hrep.le_hi i hi fun he => hne ((hrep.head_eq_none hi).mpr he)
  · intro i hi p l hq hempty
    obtain ⟨st', hs⟩ := hstep .deq trivial
    exact ⟨st', hs.trans (by rw [A.step_deq_of_highest hi hq hempty])⟩
  · intro i hi p l hq hempty
    obtain ⟨st', hs⟩ := hstep .deqTail trivial
    exact ⟨st', hs.trans (by rw [A.step_deqTail_of_lowest hi hq hempty])⟩
  · intro bmp i hi p l hbmp hq hempty
    obtain ⟨st', hs⟩ := hstep (.mdeq bmp) trivial
    exact ⟨st', hs.trans (by rw [A.step_mdeq_of_highest hi hbmp hq hempty])⟩

/-- A queue of two precedences after one enqueue. -/
theorem pktq_refines_fifos_enq :
    let st₀ : PktqSt ℕ := ⟨fun _ => none, pktqInit ⟨0, 0, 0, 0, fun _ => ⟨none, none, 0, 0⟩⟩ 2 8⟩
    ∃ st, Run.Trace PktqRun st₀ [(.penq 1 7, .pkt (some 7, none))] st ∧
      st.pq.len.toNat = ∑ i ∈ Finset.range 2, (st.pq.q i).len.toNat := by
  intro st₀
  have hrep : Rep st₀ (Fifos.init 2 8) := pktqInit_rep _ _ (by decide) (by decide) 8
  have hempty : ¬ st₀.Queued 7 := by
    intro ⟨i, hi, l, hl, hm⟩
    rw [hl.unique (hrep.chain i (hrep.num ▸ hi))] at hm
    cases hm
  have hlegal : st₀.Legal (.penq 1 7) := ⟨by decide, hempty⟩
  obtain ⟨st, hs, -⟩ := step_refines hrep hlegal
  have htrace : Run.Trace PktqRun st₀ ([] ++ [(.penq 1 7, .pkt (some 7, none))]) st :=
    Run.Trace.nil.snoc ⟨hlegal, hs⟩
  obtain ⟨A, -, -, -, hlen, -⟩ := pktq_refines_fifos _ _ (by decide) (by decide) 8 htrace
  exact ⟨st, htrace, hlen⟩

end Bcm
end Router
