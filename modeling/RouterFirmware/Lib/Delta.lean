/-
# Delta lists

A queue of deadlines kept as differences: an entry holds how much later than
the entry before it is due. `due t l` are the deadlines of the delta list `l`
from time `t` on. An entry inserted at its place (`Delta.insert`) takes its
difference from the next; no other deadline moves (`due_insert`). The list is
in the order of its deadlines if no difference is negative
(`due_pairwise`), and inserting keeps it so (`insert_good`).

Differences are of a type `V` with a subtraction and a comparison that need
not be those of an ordered group: `val` reads their amount.
-/
import Mathlib.Algebra.Order.Group.Defs
import Mathlib.Tactic

namespace Delta

variable {ι V A : Type*} [AddCommGroup A]

/-- The deadlines of a delta list. -/
def due (t : A) : List (ι × A) → List (ι × A)
  | [] => []
  | (i, d) :: l => (i, t + d) :: due (t + d) l

@[simp] theorem due_map_fst : ∀ (t : A) (l : List (ι × A)), (due t l).map Prod.fst = l.map Prod.fst
  | _, [] => rfl
  | t, (i, d) :: l => by rw [due, List.map_cons, List.map_cons, due_map_fst]

theorem due_append : ∀ (t : A) (l l' : List (ι × A)),
    due t (l ++ l') = due t l ++ due (t + (l.map Prod.snd).sum) l'
  | t, [], l' => by simp [due]
  | t, (i, d) :: l, l' => by
    rw [List.cons_append, due, due, due_append (t + d) l l', List.cons_append, List.map_cons,
      List.sum_cons, add_assoc]

section Insert

variable (sub : V → V → V) (lt : V → V → Bool)

/-- The entry `(i, v)` goes before the first entry it is less than, and takes
off what it passes. -/
def insert (i : ι) : V → List (ι × V) → List (ι × V)
  | v, [] => [(i, v)]
  | v, (j, w) :: l =>
    if lt v w then (i, v) :: (j, sub w v) :: l else (j, w) :: insert i (sub v w) l

/-- The amounts of the differences. -/
def amounts (val : V → A) (l : List (ι × V)) : List (ι × A) := l.map fun p => (p.1, val p.2)

variable {sub} {val : V → A}

/-- Inserting adds one deadline and moves none. -/
theorem due_insert (hsub : ∀ v w, val (sub v w) = val v - val w) (i : ι) :
    ∀ (t : A) (v : V) (l : List (ι × V)), ∃ D₁ D₂, due t (amounts val l) = D₁ ++ D₂ ∧
      due t (amounts val (insert sub lt i v l)) = D₁ ++ (i, t + val v) :: D₂
  | t, v, [] => ⟨[], [], rfl, rfl⟩
  | t, v, (j, w) :: l => by
    unfold insert
    by_cases hlt : lt v w = true
    · refine ⟨[], due t (amounts val ((j, w) :: l)), rfl, ?_⟩
      rw [if_pos hlt]
      have hw : t + val v + val (sub w v) = t + val w := by rw [hsub]; abel
      simp only [amounts, List.map_cons, due, hw, List.nil_append]
    · obtain ⟨D₁, D₂, hold, hnew⟩ := due_insert hsub i (t + val w) (sub v w) l
      refine ⟨(j, t + val w) :: D₁, D₂, ?_, ?_⟩
      · rw [amounts, List.map_cons, due, List.cons_append]
        exact congrArg _ hold
      · have hv : t + val w + val (sub v w) = t + val v := by rw [hsub]; abel
        rw [if_neg hlt, amounts, List.map_cons, due, List.cons_append, ← hv]
        exact congrArg _ hnew

/-- Inserting keeps the differences good, if subtracting what is not greater does. -/
theorem insert_good {good : V → Prop}
    (hlt : ∀ v w, good v → good w → lt v w = true → good (sub w v))
    (hge : ∀ v w, good v → good w → lt v w = false → good (sub v w)) (i : ι) :
    ∀ (v : V) (l : List (ι × V)), good v → (∀ p ∈ l, good p.2) →
      ∀ p ∈ insert sub lt i v l, good p.2
  | v, [], hv, _ => by
    intro p hp
    rw [insert, List.mem_singleton] at hp
    rw [hp]
    exact hv
  | v, (j, w) :: l, hv, hl => by
    have hw : good w := hl (j, w) List.mem_cons_self
    have hl' : ∀ p ∈ l, good p.2 := fun p hp => hl p (List.mem_cons_of_mem _ hp)
    intro p hp
    unfold insert at hp
    by_cases h : lt v w = true
    · rw [if_pos h] at hp
      rcases List.mem_cons.mp hp with rfl | hp
      · exact hv
      · rcases List.mem_cons.mp hp with rfl | hp
        · exact hlt v w hv hw h
        · exact hl' p hp
    · rw [if_neg h] at hp
      rcases List.mem_cons.mp hp with rfl | hp
      · exact hw
      · exact insert_good hlt hge i (sub v w) l (hge v w hv hw (eq_false_of_ne_true h)) hl' p hp

end Insert

/-- Without negative differences the deadlines are in order. -/
theorem due_pairwise [LinearOrder A] [IsOrderedAddMonoid A] : ∀ (t : A) {l : List (ι × A)},
    (∀ p ∈ l, 0 ≤ p.2) →
    ((due t l).map Prod.snd).Pairwise (· ≤ ·) ∧ ∀ d ∈ (due t l).map Prod.snd, t ≤ d
  | t, [], _ => ⟨List.Pairwise.nil, by simp [due]⟩
  | t, (i, d) :: l, h => by
    obtain ⟨hsorted, hle⟩ := due_pairwise (t + d) fun p hp => h p (List.mem_cons_of_mem _ hp)
    have hd : t ≤ t + d := le_add_of_nonneg_right (h (i, d) List.mem_cons_self)
    refine ⟨List.pairwise_cons.mpr ⟨hle, hsorted⟩, ?_⟩
    intro x hx
    rcases List.mem_cons.mp hx with rfl | hx
    · exact hd
    · exact hd.trans (hle x hx)

end Delta
