/-
# A pool for texts

A pointer goes through a pool: a text is printed where it is, and it may be moved behind the text. Other texts are
written to arrays. The program ends at a text that it does not have (`made`).

`inside_iff` says that the pool is not left exactly if the texts, each with its end, are no more than there is room for;
`cost_range_le` and `within_range` what a loop over rows comes to.
-/
import Mathlib.Algebra.BigOperators.Intervals
import Mathlib.Data.List.TakeWhile
import Mathlib.Tactic

namespace Pool

variable {α β : Type*}

/-- The pointer is set to the beginning; a text is printed at it; a text is printed, if there is one, and the pointer is
moved behind it; a text is written to an array. -/
inductive Step (α β : Type*) where
  | init
  | print (text : List α)
  | alloc (text : Option (List α))
  | put (array : β) (text : List α)

namespace Step

/-- The program goes on. -/
def There : Step α β → Bool
  | alloc none => false
  | _ => true

/-- The pointer is not set. -/
def Runs : Step α β → Bool
  | init => false
  | _ => true

/-- How far the pointer is moved. -/
def move : Step α β → ℕ
  | alloc (some text) => text.length + 1
  | _ => 0

end Step

/-- The steps that are made. -/
def made (l : List (Step α β)) : List (Step α β) := l.takeWhile Step.There

/-- All steps are made. -/
def Complete (l : List (Step α β)) : Prop := ∀ s ∈ l, s.There = true

/-- How far the pointer is moved. -/
def moved (l : List (Step α β)) : ℕ := (l.map Step.move).sum

/-- What the texts need, each with its end, up to one that is not there. -/
def cost : List (Step α β) → ℕ
  | [] => 0
  | .init :: l => cost l
  | .print text :: l => max (text.length + 1) (cost l)
  | .alloc none :: _ => 0
  | .alloc (some text) :: l => text.length + 1 + cost l
  | .put _ _ :: l => cost l

/-- No text leaves a pool of `size` bytes, from the pointer on; before it is set there is no pool. -/
def Inside (size : ℕ) : Option ℕ → List (Step α β) → Prop
  | _, [] => True
  | _, .init :: l => Inside size (some 0) l
  | none, .print _ :: _ => False
  | some g, .print text :: l => g + text.length + 1 ≤ size ∧ Inside size (some g) l
  | _, .alloc none :: _ => True
  | none, .alloc (some _) :: _ => False
  | some g, .alloc (some text) :: l => g + text.length + 1 ≤ size ∧ Inside size (some (g + text.length + 1)) l
  | g, .put _ _ :: l => Inside size g l

/-- No text that is written leaves the array, of `size b` bytes. -/
def Within (size : β → ℕ) (b : β) (l : List (Step α β)) : Prop := ∀ text, .put b text ∈ made l → text.length < size b

/-! ### Steps one after the other -/

section Append

variable {l l' : List (Step α β)}

theorem made_append (h : Complete l) : made (l ++ l') = l ++ made l' := List.takeWhile_append_of_pos h

theorem made_append_of_not (h : ¬Complete l) : made (l ++ l') = made l := by
  unfold made
  rw [List.takeWhile_append, if_neg]
  intro hlen
  apply h
  have hself : l.takeWhile Step.There = l := (List.takeWhile_prefix _).eq_of_length hlen
  exact List.takeWhile_eq_self_iff.mp hself

theorem made_of_complete (h : Complete l) : made l = l := List.takeWhile_eq_self_iff.mpr h

theorem complete_cons {s : Step α β} : Complete (s :: l) ↔ s.There = true ∧ Complete l := List.forall_mem_cons

theorem complete_append : Complete (l ++ l') ↔ Complete l ∧ Complete l' := List.forall_mem_append

theorem moved_append : moved (l ++ l') = moved l + moved l' := by
  rw [moved, List.map_append, List.sum_append, moved, moved]

/-- What comes behind texts needs its room behind them. -/
theorem cost_append : ∀ {l : List (Step α β)} (_ : Complete l), cost (l ++ l') = max (cost l) (moved l + cost l')
  | [], _ => by simp [cost, moved]
  | .init :: l, h => cost_append (complete_cons.mp h).2 |>.trans (by simp [cost, moved, Step.move])
  | .put _ _ :: l, h => cost_append (complete_cons.mp h).2 |>.trans (by simp [cost, moved, Step.move])
  | .alloc none :: _, h => absurd (complete_cons.mp h).1 Bool.false_ne_true
  | .print text :: l, h => by
    have ih := cost_append (complete_cons.mp h).2
    simp only [List.cons_append, cost, ih, moved, List.map_cons, List.sum_cons, Step.move]
    omega
  | .alloc (some text) :: l, h => by
    have ih := cost_append (complete_cons.mp h).2
    simp only [List.cons_append, cost, ih, moved, List.map_cons, List.sum_cons, Step.move]
    omega

/-- Behind a text that is not there nothing needs room. -/
theorem cost_append_of_not : ∀ {l : List (Step α β)} (_ : ¬Complete l), cost (l ++ l') = cost l
  | [], h => absurd (fun _ hs => absurd hs List.not_mem_nil) h
  | .init :: l, h => cost_append_of_not (l := l) fun hc => h (complete_cons.mpr ⟨rfl, hc⟩)
  | .put _ _ :: l, h => cost_append_of_not (l := l) fun hc => h (complete_cons.mpr ⟨rfl, hc⟩)
  | .alloc none :: _, _ => rfl
  | .print text :: l, h => by
    have ih := cost_append_of_not (l := l) fun hc => h (complete_cons.mpr ⟨rfl, hc⟩)
    rw [List.cons_append, cost, cost, ih]
  | .alloc (some text) :: l, h => by
    have ih := cost_append_of_not (l := l) fun hc => h (complete_cons.mpr ⟨rfl, hc⟩)
    rw [List.cons_append, cost, cost, ih]

end Append

/-! ### The pool -/

section Inside

variable {size : ℕ} {l' : List (Step α β)}

/-- **The texts fit in the pool exactly if what they need is there.** -/
theorem inside_iff : ∀ {l : List (Step α β)} {g : ℕ} (_ : ∀ s ∈ l, s.Runs = true) (_ : g ≤ size),
    Inside size (some g) l ↔ g + cost l ≤ size
  | [], g, _, hg => ⟨fun _ => hg, fun _ => trivial⟩
  | .init :: _, _, h, _ => absurd (h _ List.mem_cons_self) Bool.false_ne_true
  | .alloc none :: _, g, _, hg => ⟨fun _ => hg, fun _ => trivial⟩
  | .print text :: l, g, h, hg => by
    have ih := inside_iff (l := l) (fun s hs => h s (List.mem_cons_of_mem _ hs)) hg
    rw [Inside, cost, ih]
    omega
  | .alloc (some text) :: l, g, h, hg => by
    rw [Inside, cost]
    constructor
    · rintro ⟨hroom, hrest⟩
      have ih := (inside_iff (fun s hs => h s (List.mem_cons_of_mem _ hs)) hroom).mp hrest
      omega
    · intro hall
      have hroom : g + text.length + 1 ≤ size := by omega
      exact ⟨hroom, (inside_iff (fun s hs => h s (List.mem_cons_of_mem _ hs)) hroom).mpr (by omega)⟩
  | .put _ _ :: l, g, h, hg => inside_iff (l := l) (fun s hs => h s (List.mem_cons_of_mem _ hs)) hg

/-- A pool that is used anew behind other steps. -/
theorem inside_init : ∀ {l : List (Step α β)} {g : ℕ} (_ : ∀ s ∈ l, s.Runs = true) (_ : g ≤ size),
    Inside size (some g) (l ++ .init :: l') ↔ g + cost l ≤ size ∧ (Complete l → Inside size (some 0) l')
  | [], g, _, hg => ⟨fun h => ⟨hg, fun _ => h⟩, fun h => h.2 fun _ hs => absurd hs List.not_mem_nil⟩
  | .init :: _, _, h, _ => absurd (h _ List.mem_cons_self) Bool.false_ne_true
  | .alloc none :: _, g, _, hg =>
    ⟨fun _ => ⟨hg, fun hc => absurd (complete_cons.mp hc).1 Bool.false_ne_true⟩, fun _ => trivial⟩
  | .print text :: l, g, h, hg => by
    have ih := inside_init (l := l) (fun s hs => h s (List.mem_cons_of_mem _ hs)) hg
    rw [List.cons_append, Inside, cost, complete_cons, ih]
    constructor
    · rintro ⟨hroom, hall, hinit⟩
      exact ⟨by omega, fun hc => hinit hc.2⟩
    · rintro ⟨hall, hinit⟩
      exact ⟨by omega, by omega, fun hc => hinit ⟨rfl, hc⟩⟩
  | .alloc (some text) :: l, g, h, hg => by
    rw [List.cons_append, Inside, cost, complete_cons]
    constructor
    · rintro ⟨hroom, hrest⟩
      obtain ⟨hall, hinit⟩ := (inside_init (fun s hs => h s (List.mem_cons_of_mem _ hs)) hroom).mp hrest
      exact ⟨by omega, fun hc => hinit hc.2⟩
    · rintro ⟨hall, hinit⟩
      have hroom : g + text.length + 1 ≤ size := by omega
      have ih := inside_init (l := l) (fun s hs => h s (List.mem_cons_of_mem _ hs)) hroom
      exact ⟨hroom, ih.mpr ⟨by omega, fun hc => hinit ⟨rfl, hc⟩⟩⟩
  | .put _ _ :: l, g, h, hg => by
    have ih := inside_init (l := l) (fun s hs => h s (List.mem_cons_of_mem _ hs)) hg
    rw [List.cons_append, Inside, cost, complete_cons, ih]
    exact and_congr_right fun _ => ⟨fun hinit hc => hinit hc.2, fun hinit hc => hinit ⟨rfl, hc⟩⟩

end Inside

/-! ### An array -/

section Within

variable {size : β → ℕ} {b : β} {l l' : List (Step α β)}

@[simp] theorem within_nil : Within size b ([] : List (Step α β)) := fun _ h => absurd h List.not_mem_nil

theorem within_of_ne {s : Step α β} (hs : s.There = true) (hne : ∀ text, s ≠ .put b text) :
    Within size b (s :: l) ↔ Within size b l := by
  unfold Within made
  rw [List.takeWhile_cons, if_pos hs]
  exact forall_congr' fun text => by rw [List.mem_cons, or_iff_right (hne text).symm]

@[simp] theorem within_init : Within size b (.init :: l) ↔ Within size b l := within_of_ne rfl nofun

@[simp] theorem within_print {text : List α} : Within size b (.print text :: l) ↔ Within size b l :=
  within_of_ne rfl nofun

@[simp] theorem within_alloc {text : List α} : Within size b (.alloc (some text) :: l) ↔ Within size b l :=
  within_of_ne rfl nofun

@[simp] theorem within_stop : Within size b (.alloc none :: l) := fun _ h => absurd h List.not_mem_nil

@[simp] theorem within_put {c : β} {text : List α} :
    Within size b (.put c text :: l) ↔ (c = b → text.length < size b) ∧ Within size b l := by
  unfold Within made
  rw [List.takeWhile_cons, if_pos (by rfl)]
  constructor
  · intro h
    refine ⟨?_, fun t ht => h t (List.mem_cons_of_mem _ ht)⟩
    rintro rfl
    exact h text List.mem_cons_self
  · rintro ⟨hput, hrest⟩ t ht
    rcases List.mem_cons.mp ht with heq | ht
    · cases heq
      exact hput rfl
    · exact hrest t ht

theorem within_append : Within size b (l ++ l') ↔ Within size b l ∧ (Complete l → Within size b l') := by
  unfold Within
  by_cases hc : Complete l
  · rw [made_append hc, made_of_complete hc]
    constructor
    · exact fun h => ⟨fun t ht => h t (List.mem_append_left _ ht), fun _ t ht => h t (List.mem_append_right _ ht)⟩
    · rintro ⟨hl, hl'⟩ t ht
      rcases List.mem_append.mp ht with ht | ht
      · exact hl t ht
      · exact hl' hc t ht
  · rw [made_append_of_not hc]
    exact ⟨fun h => ⟨h, fun hn => absurd hn hc⟩, And.left⟩

end Within

/-! ### Rows -/

section Rows

variable {row : ℕ → List (Step α β)}

theorem range_flatMap_succ (n : ℕ) : (List.range (n + 1)).flatMap row = (List.range n).flatMap row ++ row n := by
  rw [List.range_succ, List.flatMap_append, List.flatMap_singleton]

theorem complete_range {n : ℕ} : Complete ((List.range n).flatMap row) ↔ ∀ i < n, Complete (row i) := by
  constructor
  · exact fun h i hi s hs => h s (List.mem_flatMap.mpr ⟨i, List.mem_range.mpr hi, hs⟩)
  · intro h s hs
    obtain ⟨i, hi, hs⟩ := List.mem_flatMap.mp hs
    exact h i (List.mem_range.mp hi) s hs

theorem moved_range (n : ℕ) : moved ((List.range n).flatMap row) = ∑ i ∈ Finset.range n, moved (row i) := by
  induction n with
  | zero => rfl
  | succ n ih => rw [range_flatMap_succ, moved_append, ih, Finset.sum_range_succ]

/-- A condition on the rows that are reached, for one row more. -/
theorem reached_succ {P : ℕ → Prop} {n : ℕ} : (∀ i < n + 1, (∀ j < i, Complete (row j)) → P i) ↔
    (∀ i < n, (∀ j < i, Complete (row j)) → P i) ∧ (Complete ((List.range n).flatMap row) → P n) := by
  rw [complete_range]
  constructor
  · exact fun h => ⟨fun i hi => h i (Nat.lt_succ_of_lt hi), h n (Nat.lt_succ_self n)⟩
  · rintro ⟨hrows, hlast⟩ i hi
    rcases Nat.lt_succ_iff_lt_or_eq.mp hi with hlt | rfl
    · exact hrows i hlt
    · exact hlast

/-- **What rows need**: each that all before it have led to needs its room behind them. -/
theorem cost_range_le {room : ℕ} (n : ℕ) : cost ((List.range n).flatMap row) ≤ room ↔
    ∀ i < n, (∀ j < i, Complete (row j)) → ∑ j ∈ Finset.range i, moved (row j) + cost (row i) ≤ room := by
  induction n with
  | zero => exact ⟨fun _ i hi => absurd hi (Nat.not_lt_zero i), fun _ => Nat.zero_le room⟩
  | succ n ih =>
    rw [reached_succ, range_flatMap_succ, ← ih]
    by_cases hc : Complete ((List.range n).flatMap row)
    · rw [cost_append hc, max_le_iff, moved_range]
      exact and_congr_right fun _ => ⟨fun h _ => h, fun h => h hc⟩
    · rw [cost_append_of_not hc]
      exact ⟨fun h => ⟨h, fun hn => absurd hn hc⟩, And.left⟩

/-- **What rows write**: each that all before it have led to. -/
theorem within_range {size : β → ℕ} {b : β} (n : ℕ) : Within size b ((List.range n).flatMap row) ↔
    ∀ i < n, (∀ j < i, Complete (row j)) → Within size b (row i) := by
  induction n with
  | zero => exact ⟨fun _ i hi => absurd hi (Nat.not_lt_zero i), fun _ => within_nil⟩
  | succ n ih => rw [reached_succ, range_flatMap_succ, within_append, ih]

end Rows

end Pool
