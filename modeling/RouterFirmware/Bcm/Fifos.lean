/-
# What a packet queue is for

An array of FIFOs, one per precedence, the oldest packet of each first. The
calls of `pktq` on it, with what they answer: `Fifos.step`. A packet that is
handed in stays until a call answers with it or frees it
(`Fifos.step_conserves`).
-/
import RouterFirmware.Bcm.Pktq

namespace Router
namespace Bcm

variable {Pkt : Type*}

/-- `num` FIFOs, and the limit of their lengths. -/
structure Fifos (Pkt : Type*) where
  num : ℕ
  max : UInt16
  q : ℕ → List Pkt

namespace Fifos

def set (A : Fifos Pkt) (i : ℕ) (l : List Pkt) : Fifos Pkt := { A with q := Function.update A.q i l }

@[simp] theorem set_num (A : Fifos Pkt) (i : ℕ) (l : List Pkt) : (A.set i l).num = A.num := rfl
@[simp] theorem set_self (A : Fifos Pkt) (i : ℕ) (l : List Pkt) : (A.set i l).q i = l :=
  Function.update_self ..

theorem set_of_ne (A : Fifos Pkt) {i j : ℕ} (h : j ≠ i) (l : List Pkt) : (A.set i l).q j = A.q j :=
  Function.update_of_ne h ..

theorem set_eq_self (A : Fifos Pkt) (i : ℕ) : A.set i (A.q i) = A := by
  unfold set
  rw [Function.update_eq_self]

/-- The highest precedence below `n` that satisfies `P`. -/
def highest (P : ℕ → Bool) : ℕ → Option ℕ
  | 0 => none
  | n + 1 => if P n then some n else highest P n

/-- The lowest precedence below `n` that satisfies `P`. -/
def lowest (P : ℕ → Bool) (n : ℕ) : Option ℕ := (List.range n).find? P

/-- Is there a packet at the precedence `i`? -/
def nonempty (A : Fifos Pkt) (i : ℕ) : Bool := !(A.q i).isEmpty

/-- The oldest packet at `i`, taken. -/
def takeFirst (A : Fifos Pkt) (i : ℕ) : Fifos Pkt × PktAt Pkt :=
  (A.set i (A.q i).tail, (A.q i).head?, some i)

/-- The newest packet at `i`, taken. -/
def takeLast (A : Fifos Pkt) (i : ℕ) : Fifos Pkt × PktAt Pkt :=
  (A.set i (A.q i).dropLast, (A.q i).getLast?, some i)

/-- A call on the FIFOs. -/
def step [DecidableEq Pkt] (A : Fifos Pkt) : PktqCall Pkt → Fifos Pkt × PktqRet Pkt
  | .penq prec p => (A.set prec (A.q prec ++ [p]), .pkt (some p, none))
  | .penqHead prec p => (A.set prec (p :: A.q prec), .pkt (some p, none))
  | .pdeq prec => (A.set prec (A.q prec).tail, .pkt ((A.q prec).head?, none))
  | .pdeqTail prec => (A.set prec (A.q prec).dropLast, .pkt ((A.q prec).getLast?, none))
  | .pflush prec => (A.set prec [], .freed (A.q prec))
  | .pdel none _ => (A, .flag false)
  | .pdel (some p) prec =>
    if p ∈ A.q prec then (A.set prec ((A.q prec).erase p), .flag true) else (A, .flag false)
  | .deq =>
    match highest A.nonempty A.num with
    | none => (A, .pkt (none, none))
    | some i => ((A.takeFirst i).1, .pkt (A.takeFirst i).2)
  | .deqTail =>
    match lowest A.nonempty A.num with
    | none => (A, .pkt (none, none))
    | some i => ((A.takeLast i).1, .pkt (A.takeLast i).2)
  | .peek =>
    match highest A.nonempty A.num with
    | none => (A, .pkt (none, none))
    | some i => (A, .pkt (A.takeFirst i).2)
  | .peekTail =>
    match lowest A.nonempty A.num with
    | none => (A, .pkt (none, none))
    | some i => (A, .pkt (A.takeLast i).2)
  | .mdeq precBmp =>
    match highest (fun i => inBmp precBmp i && A.nonempty i) A.num with
    | none => (A, .pkt (none, none))
    | some i => ((A.takeFirst i).1, .pkt (A.takeFirst i).2)
  | .mlen precBmp =>
    (A, .int (∑ i ∈ (Finset.range A.num).filter (inBmp precBmp ·), (A.q i).length))
  | .flush =>
    ({ A with q := fun i => if i < A.num then [] else A.q i },
      .freed ((List.range A.num).flatMap A.q))
  | .setmax maxLen =>
    if maxLen = 0 then (A, .int A.max.toNat)
    else
      let max : UInt16 := UInt16.ofNat (maxLen % 2 ^ 16).toNat
      ({ A with max := max }, .int max.toNat)

variable [DecidableEq Pkt] in
/-- Calls one after the other, with their answers. -/
def run (A : Fifos Pkt) (cs : List (PktqCall Pkt)) : Fifos Pkt × List (PktqRet Pkt) :=
  cs.foldl (fun s c => ((s.1.step c).1, s.2 ++ [(s.1.step c).2])) (A, [])

variable [DecidableEq Pkt] in
theorem run_snoc (A : Fifos Pkt) (cs : List (PktqCall Pkt)) (c : PktqCall Pkt) :
    A.run (cs ++ [c]) = (((A.run cs).1.step c).1, (A.run cs).2 ++ [((A.run cs).1.step c).2]) := by
  simp [run]

/-! ### Highest and lowest -/

theorem highest_eq_some {P : ℕ → Bool} {i : ℕ} : ∀ {n : ℕ},
    highest P n = some i ↔ i < n ∧ P i = true ∧ ∀ j < n, P j = true → j ≤ i
  | 0 => by simp [highest]
  | n + 1 => by
    unfold highest
    split_ifs with hn
    · constructor
      · intro h
        cases h
        exact ⟨Nat.lt_succ_self _, hn, fun j hj _ => by omega⟩
      · intro ⟨h1, _, h3⟩
        have := h3 n (Nat.lt_succ_self _) hn
        rw [show i = n by omega]
    · rw [highest_eq_some]
      constructor
      · intro ⟨h1, h2, h3⟩
        refine ⟨by omega, h2, fun j hj hP => ?_⟩
        have hjn : j ≠ n := fun he => hn (he ▸ hP)
        exact h3 j (by omega) hP
      · intro ⟨h1, h2, h3⟩
        have hin : i ≠ n := fun he => hn (he ▸ h2)
        exact ⟨by omega, h2, fun j hj hP => h3 j (by omega) hP⟩

theorem highest_eq_none {P : ℕ → Bool} : ∀ {n : ℕ},
    highest P n = none ↔ ∀ j < n, P j = false
  | 0 => by simp [highest]
  | n + 1 => by
    unfold highest
    split_ifs with hn
    · simp only [false_iff, not_forall]
      exact ⟨n, Nat.lt_succ_self _, by simp [hn]⟩
    · rw [highest_eq_none]
      constructor
      · intro h j hj
        by_cases he : j = n
        · rw [he]
          simpa using hn
        · exact h j (by omega)
      · exact fun h j hj => h j (by omega)

theorem lowest_eq_some {P : ℕ → Bool} {i n : ℕ} :
    lowest P n = some i ↔ i < n ∧ P i = true ∧ ∀ j < i, P j = false := by
  unfold lowest
  rw [List.find?_range_eq_some]
  simp only [List.mem_range, Bool.not_eq_eq_eq_not, Bool.not_true]
  tauto

theorem lowest_eq_none {P : ℕ → Bool} {n : ℕ} : lowest P n = none ↔ ∀ j < n, P j = false := by
  unfold lowest
  simp

theorem nonempty_of_cons {A : Fifos Pkt} {i : ℕ} {p : Pkt} {l : List Pkt} (hq : A.q i = p :: l) :
    A.nonempty i = true := by
  rw [nonempty, hq]
  rfl

theorem highest_of_above {P : ℕ → Bool} {i n : ℕ} (hi : i < n) (hP : P i = true)
    (habove : ∀ j < n, i < j → P j = false) : highest P n = some i := by
  refine highest_eq_some.mpr ⟨hi, hP, fun j hj hPj => ?_⟩
  by_contra hlt
  rw [habove j hj (by omega)] at hPj
  cases hPj

section Answers

variable [DecidableEq Pkt] (A : Fifos Pkt) {i : ℕ} {p : Pkt} {l : List Pkt}

/-- A dequeue takes the oldest packet of the highest precedence that has one. -/
theorem step_deq_of_highest (hi : i < A.num) (hq : A.q i = p :: l)
    (hempty : ∀ j < A.num, i < j → A.q j = []) : (A.step .deq).2 = .pkt (some p, some i) := by
  have hhigh : highest A.nonempty A.num = some i := by
    refine highest_of_above hi (nonempty_of_cons hq) fun j hj hlt => ?_
    rw [nonempty, hempty j hj hlt]
    rfl
  simp [step, hhigh, takeFirst, hq]

/-- A masked dequeue takes the oldest packet of the highest in the mask. -/
theorem step_mdeq_of_highest {bmp : UInt32} (hi : i < A.num) (hbmp : inBmp bmp i = true) (hq : A.q i = p :: l)
    (hempty : ∀ j < A.num, i < j → inBmp bmp j = true → A.q j = []) :
    (A.step (.mdeq bmp)).2 = .pkt (some p, some i) := by
  have hhigh : highest (fun i => inBmp bmp i && A.nonempty i) A.num = some i := by
    refine highest_of_above hi (by rw [hbmp, nonempty_of_cons hq]; rfl) fun j hj hlt => ?_
    cases hj' : inBmp bmp j with
    | false => rfl
    | true =>
      rw [nonempty, hempty j hj hlt hj']
      rfl
  simp [step, hhigh, takeFirst, hq]

/-- A dequeue at the tail takes the newest packet of the lowest precedence that has one. -/
theorem step_deqTail_of_lowest (hi : i < A.num) (hq : A.q i = l ++ [p]) (hempty : ∀ j < i, A.q j = []) :
    (A.step .deqTail).2 = .pkt (some p, some i) := by
  have hlow : lowest A.nonempty A.num = some i := by
    refine lowest_eq_some.mpr ⟨hi, ?_, fun j hj => ?_⟩
    · rw [nonempty, hq]
      simp
    · rw [nonempty, hempty j hj]
      rfl
  simp [step, hlow, takeLast, hq]

end Answers

/-! ### Conservation -/

/-- A sum over the precedences, when one of them is set. -/
theorem sum_set {M : Type*} [AddCommMonoid M] (f : List Pkt → M) (A : Fifos Pkt) {i : ℕ}
    (h : i < A.num) (l : List Pkt) :
    ∑ j ∈ Finset.range A.num, f ((A.set i l).q j) + f (A.q i) =
      ∑ j ∈ Finset.range A.num, f (A.q j) + f l := by
  have hi : i ∈ Finset.range A.num := Finset.mem_range.mpr h
  have hset : ∑ j ∈ (Finset.range A.num).erase i, f ((A.set i l).q j) =
      ∑ j ∈ (Finset.range A.num).erase i, f (A.q j) :=
    Finset.sum_congr rfl fun j hj => by rw [A.set_of_ne (Finset.ne_of_mem_erase hj)]
  rw [← Finset.add_sum_erase _ _ hi, ← Finset.add_sum_erase _ (fun j => f (A.q j)) hi, hset,
    set_self]
  abel

/-- The packets held. -/
def held (A : Fifos Pkt) : Multiset Pkt := ∑ i ∈ Finset.range A.num, (A.q i : Multiset Pkt)

/-- The packets held, precedence by precedence. -/
theorem held_eq_coe (A : Fifos Pkt) : A.held = ((List.range A.num).flatMap A.q : List Pkt) := by
  have hsum : ∀ n, ∑ i ∈ Finset.range n, (A.q i : Multiset Pkt) =
      ((List.range n).flatMap A.q : List Pkt) := by
    intro n
    induction n with
    | zero => rfl
    | succ n ih =>
      rw [Finset.sum_range_succ, ih, List.range_succ, List.flatMap_append, ← Multiset.coe_add]
      simp
  exact hsum A.num

theorem held_set (A : Fifos Pkt) {i : ℕ} (h : i < A.num) (l : List Pkt) :
    (A.set i l).held + (A.q i : Multiset Pkt) = A.held + (l : Multiset Pkt) :=
  A.sum_set _ h l

end Fifos

/-- The packets a call hands in. -/
def PktqCall.given : PktqCall Pkt → Multiset Pkt
  | .penq _ p => {p}
  | .penqHead _ p => {p}
  | _ => 0

/-- The packets a call gives back or frees, by its answer. -/
def PktqCall.released : PktqCall Pkt → PktqRet Pkt → Multiset Pkt
  | .pdeq _, .pkt (some p, _) => {p}
  | .pdeqTail _, .pkt (some p, _) => {p}
  | .deq, .pkt (some p, _) => {p}
  | .deqTail, .pkt (some p, _) => {p}
  | .mdeq _, .pkt (some p, _) => {p}
  | .pdel (some p) _, .flag true => {p}
  | .pflush _, .freed ps => ps
  | .flush, .freed ps => ps
  | _, _ => 0

/-- The precedence a call names is one of the queue's. -/
def PktqCall.InRange (n : ℕ) : PktqCall Pkt → Prop
  | .penq prec _ => prec < n
  | .penqHead prec _ => prec < n
  | .pdeq prec => prec < n
  | .pdeqTail prec => prec < n
  | .pflush prec => prec < n
  | .pdel _ prec => prec < n
  | _ => True

namespace Fifos

theorem nonempty_eq_true {A : Fifos Pkt} {i : ℕ} : A.nonempty i = true ↔ A.q i ≠ [] := by
  simp [nonempty]

theorem held_takeFirst {A : Fifos Pkt} {i : ℕ} (h : i < A.num) {p : Pkt} {l : List Pkt}
    (hq : A.q i = p :: l) : A.held = (A.set i l).held + {p} := by
  have hs := A.held_set h l
  rw [hq, ← Multiset.cons_coe, ← Multiset.singleton_add, ← add_assoc] at hs
  exact (add_right_cancel hs).symm

theorem held_takeLast {A : Fifos Pkt} {i : ℕ} (h : i < A.num) {p : Pkt} {l : List Pkt}
    (hq : A.q i = l ++ [p]) : A.held = (A.set i l).held + {p} := by
  have hs := A.held_set h l
  rw [hq, ← Multiset.coe_add, add_comm (l : Multiset Pkt), ← add_assoc] at hs
  exact (add_right_cancel hs).symm

/-- The oldest packet taken from a precedence that has one. -/
theorem held_takeFirst_of_nonempty (A : Fifos Pkt) {i : ℕ} (hi : i < A.num) (hne : A.nonempty i = true) :
    ∃ p, (A.q i).head? = some p ∧ A.held = (A.takeFirst i).1.held + {p} := by
  obtain ⟨p, l, hq⟩ := List.exists_cons_of_ne_nil (nonempty_eq_true.mp hne)
  refine ⟨p, by rw [hq]; rfl, ?_⟩
  rw [takeFirst, hq]
  exact held_takeFirst hi hq

theorem held_takeLast_of_nonempty (A : Fifos Pkt) {i : ℕ} (hi : i < A.num) (hne : A.nonempty i = true) :
    ∃ p, (A.q i).getLast? = some p ∧ A.held = (A.takeLast i).1.held + {p} := by
  obtain ⟨l, p, hq⟩ := List.eq_nil_or_concat (A.q i) |>.resolve_left (nonempty_eq_true.mp hne)
  rw [List.concat_eq_append] at hq
  refine ⟨p, by rw [hq]; simp, ?_⟩
  simp only [takeLast, hq, List.dropLast_concat]
  exact held_takeLast hi hq

variable [DecidableEq Pkt]

theorem step_num (A : Fifos Pkt) (c : PktqCall Pkt) : (A.step c).1.num = A.num := by
  cases c with
  | pdel pktbuf prec =>
    cases pktbuf with
    | none => rfl
    | some p =>
      simp only [step]
      split_ifs <;> rfl
  | deq | deqTail | peek | peekTail | mdeq =>
    simp only [step]
    split <;> rfl
  | setmax maxLen =>
    simp only [step]
    split_ifs <;> rfl
  | _ => rfl

/-- **Nothing is lost or made up**: what was held and what is handed in is
held after the call, or given back by it. -/
theorem step_conserves (A : Fifos Pkt) (c : PktqCall Pkt) (hc : c.InRange A.num) :
    A.held + c.given = (A.step c).1.held + c.released (A.step c).2 := by
  cases c with
  | penq prec p =>
    have hs := A.held_set hc (A.q prec ++ [p])
    rw [← Multiset.coe_add, ← add_assoc, add_right_comm] at hs
    simp only [step, PktqCall.given, PktqCall.released, add_zero]
    exact (add_right_cancel hs).symm
  | penqHead prec p =>
    have hs := A.held_set hc (p :: A.q prec)
    rw [← Multiset.cons_coe, ← Multiset.singleton_add, ← add_assoc] at hs
    simp only [step, PktqCall.given, PktqCall.released, add_zero]
    exact (add_right_cancel hs).symm
  | pdeq prec =>
    simp only [step, PktqCall.given, add_zero]
    cases hq : A.q prec with
    | nil =>
      have hs := A.set_eq_self prec
      rw [hq] at hs
      simp [PktqCall.released, hs]
    | cons p l => exact held_takeFirst hc hq
  | pdeqTail prec =>
    simp only [step, PktqCall.given, add_zero]
    rcases List.eq_nil_or_concat (A.q prec) with hq | ⟨l, p, hq⟩
    · have hs := A.set_eq_self prec
      rw [hq] at hs ⊢
      simp [PktqCall.released, hs]
    · rw [List.concat_eq_append] at hq
      simp only [hq, List.getLast?_append, List.dropLast_concat]
      exact held_takeLast hc hq
  | pflush prec =>
    simp only [step, PktqCall.given, PktqCall.released, add_zero]
    have hs := A.held_set hc []
    simpa using hs.symm
  | pdel pktbuf prec =>
    cases pktbuf with
    | none => simp [step, PktqCall.given, PktqCall.released]
    | some p =>
      simp only [step, PktqCall.given, add_zero]
      by_cases hp : p ∈ A.q prec
      · have hs := A.held_set hc ((A.q prec).erase p)
        rw [if_pos hp]
        have hm : (A.q prec : Multiset Pkt) = {p} + ((A.q prec).erase p : Multiset Pkt) := by
          rw [Multiset.singleton_add, Multiset.cons_coe]
          exact Multiset.coe_eq_coe.mpr (List.perm_cons_erase hp)
        rw [hm, ← add_assoc] at hs
        exact (add_right_cancel hs).symm
      · rw [if_neg hp]
        simp [PktqCall.released]
  | deq =>
    simp only [step, PktqCall.given, add_zero]
    cases hi : highest A.nonempty A.num with
    | none => simp [PktqCall.released]
    | some i =>
      obtain ⟨h1, h2, -⟩ := highest_eq_some.mp hi
      obtain ⟨p, hp, hh⟩ := A.held_takeFirst_of_nonempty h1 h2
      simp only [takeFirst, hp] at hh ⊢
      exact hh
  | deqTail =>
    simp only [step, PktqCall.given, add_zero]
    cases hi : lowest A.nonempty A.num with
    | none => simp [PktqCall.released]
    | some i =>
      obtain ⟨h1, h2, -⟩ := lowest_eq_some.mp hi
      obtain ⟨p, hp, hh⟩ := A.held_takeLast_of_nonempty h1 h2
      simp only [takeLast, hp] at hh ⊢
      exact hh
  | peek =>
    simp only [step, PktqCall.given, add_zero]
    split <;> simp [PktqCall.released]
  | peekTail =>
    simp only [step, PktqCall.given, add_zero]
    split <;> simp [PktqCall.released]
  | mdeq precBmp =>
    simp only [step, PktqCall.given, add_zero]
    cases hi : highest (fun i => inBmp precBmp i && A.nonempty i) A.num with
    | none => simp [PktqCall.released]
    | some i =>
      obtain ⟨h1, h2, -⟩ := highest_eq_some.mp hi
      obtain ⟨p, hp, hh⟩ := A.held_takeFirst_of_nonempty h1 (Bool.and_eq_true_iff.mp h2).2
      simp only [takeFirst, hp] at hh ⊢
      exact hh
  | mlen precBmp => simp [step, PktqCall.given, PktqCall.released]
  | flush =>
    simp only [step, PktqCall.given, PktqCall.released, add_zero]
    have h0 : (Fifos.mk A.num A.max fun i => if i < A.num then [] else A.q i).held = 0 := by
      refine Finset.sum_eq_zero fun i hi => ?_
      simp only [if_pos (Finset.mem_range.mp hi)]
      rfl
    rw [h0, zero_add, held_eq_coe]
  | setmax maxLen =>
    simp only [step, PktqCall.given, add_zero]
    split_ifs <;> simp [PktqCall.released, held]

end Fifos

end Bcm
end Router
