/-
# Singly linked lists in a heap of links

`Linked link o l`: following `link` from the pointer `o` meets the elements
`l`, in this order, and then NULL. The list is determined by the pointer
(`Linked.unique`), and no element comes twice (`Linked.nodup`). What a list
operation does to the heap is one write: `Linked.graft` replaces all that
follows an element, `Linked.push` puts an element in front.
-/
import Mathlib.Data.List.Basic
import Mathlib.Tactic

variable {α : Type*}

/-- The elements met from `o` on, up to NULL. -/
def Linked (link : α → Option α) : Option α → List α → Prop
  | o, [] => o = none
  | o, p :: ps => o = some p ∧ Linked link (link p) ps

namespace Linked

variable {link link' : α → Option α}

theorem head_eq : ∀ {o : Option α} {l : List α}, Linked link o l → o = l.head?
  | _, [], h => h
  | _, _ :: _, h => h.1

theorem congr : ∀ {o : Option α} {l : List α}, Linked link o l → (∀ p ∈ l, link' p = link p) →
    Linked link' o l
  | _, [], h, _ => h
  | _, p :: ps, h, he => by
    refine ⟨h.1, ?_⟩
    rw [he p List.mem_cons_self]
    exact congr h.2 fun q hq => he q (List.mem_cons_of_mem _ hq)

theorem unique : ∀ {o : Option α} {l l' : List α}, Linked link o l → Linked link o l' → l = l'
  | _, [], [], _, _ => rfl
  | _, [], p :: ps, h, h' => by
    have hs := h'.1
    rw [h] at hs
    cases hs
  | _, p :: ps, [], h, h' => by
    have hs := h.1
    rw [h'] at hs
    cases hs
  | _, p :: ps, q :: qs, h, h' => by
    have hpq : p = q := Option.some.inj (h.1.symm.trans h'.1)
    subst hpq
    rw [unique h.2 h'.2]

/-- The list from one of its elements on. -/
theorem suffix : ∀ {l : List α} {o : Option α} {p : α} {r : List α}, Linked link o (l ++ p :: r) →
    Linked link (some p) (p :: r)
  | [], _, _, _, h => ⟨rfl, h.2⟩
  | _ :: _, _, _, _, h => suffix h.2

theorem link_eq {l r : List α} {o : Option α} {p : α} (h : Linked link o (l ++ p :: r)) :
    link p = r.head? := h.suffix.2.head_eq

/-- A list that ends comes by no element twice. -/
theorem nodup : ∀ {l : List α} {o : Option α}, Linked link o l → l.Nodup
  | [], _, _ => List.nodup_nil
  | p :: ps, o, h => by
    refine List.nodup_cons.mpr ⟨fun hmem => ?_, nodup h.2⟩
    obtain ⟨a, b, rfl⟩ := List.append_of_mem hmem
    -- from `p` on the list is both itself and a proper suffix of itself
    have h1 : Linked link (some p) (p :: (a ++ p :: b)) := ⟨rfl, h.2⟩
    have heq := unique h1 h.2.suffix
    have hlen := congrArg List.length heq
    simp at hlen
    omega

variable [DecidableEq α]

/-- A write to an element the list does not have. -/
theorem update_of_notMem {o : Option α} {l : List α} (h : Linked link o l) {p : α} (hp : p ∉ l)
    (x : Option α) : Linked (Function.update link p x) o l := by
  refine h.congr fun q hq => ?_
  have hne : q ≠ p := fun he => hp (he ▸ hq)
  rw [Function.update_of_ne hne]

/-- The element `p` in front of the list. -/
theorem push {o : Option α} {l : List α} (h : Linked link o l) {p : α} (hp : p ∉ l) :
    Linked (Function.update link p o) (some p) (p :: l) := by
  refine ⟨rfl, ?_⟩
  rw [Function.update_self]
  exact h.update_of_notMem hp o

/-- What follows `t` replaced by another list. -/
theorem graft : ∀ {l : List α} {o : Option α} {t : α} {r r' : List α} {o' : Option α},
    Linked link o (l ++ t :: r) → Linked link o' r' → t ∉ r' →
    Linked (Function.update link t o') o (l ++ t :: r')
  | [], _, t, r, r', o', h, h', ht => by
    refine ⟨h.1, ?_⟩
    rw [Function.update_self]
    exact h'.update_of_notMem ht o'
  | x :: l, _, t, r, r', o', h, h', ht => by
    have hne : x ≠ t := by
      have hnd := h.nodup
      intro he
      simp [he] at hnd
    refine ⟨h.1, ?_⟩
    rw [Function.update_of_ne hne]
    exact graft h.2 h' ht

end Linked
