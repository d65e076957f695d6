/-
# Chains of rules, the first match first

A chain is a list of rules, each a test and a target. A packet is tested against one rule after the other; a target may
decide, or do something on the way and go on (`next`), or send the packet through another chain, from which it comes back
if no rule there decides. How deep chains may call each other is bounded; a packet that goes deeper is `deep`.

`follow_append` opens a chain where it was put together from parts; `follow_edits` does so for one that was made by
appending and inserting, as long as no inserted rule decides.
-/
import Mathlib.Data.List.Basic

namespace Chain

variable {π ν δ : Type*}

/-- What a rule does with a packet. -/
inductive Target (ν δ : Type*)
  | final (v : δ)
  | next
  | jump (chain : ν)

structure Rule (π ν δ : Type*) where
  test : π → Bool
  target : Target ν δ

/-- What comes of a packet in a chain: a decision, or the end of the chain. -/
inductive Outcome (δ : Type*)
  | verdict (v : δ)
  | off
  | deep
deriving DecidableEq

/-- What comes next, when the end of the chain was reached. -/
def Outcome.andThen : Outcome δ → Outcome δ → Outcome δ
  | off, o => o
  | verdict v, _ => verdict v
  | deep, _ => deep

@[simp] theorem Outcome.off_andThen (o : Outcome δ) : off.andThen o = o := rfl

@[simp] theorem Outcome.verdict_andThen (v : δ) (o : Outcome δ) : (verdict v).andThen o = verdict v := rfl

@[simp] theorem Outcome.andThen_off (o : Outcome δ) : o.andThen off = o := by cases o <;> rfl

theorem Outcome.andThen_assoc (o o' o'' : Outcome δ) : (o.andThen o').andThen o'' = o.andThen (o'.andThen o'') := by
  cases o <;> rfl

/-- What a target comes to, where `enter` is what comes of the packet in another chain. -/
def Target.reach (enter : ν → Outcome δ) : Target ν δ → Outcome δ
  | final v => .verdict v
  | next => .off
  | jump chain => enter chain

/-- A packet on its way along rules. -/
def follow (enter : ν → Outcome δ) (p : π) : List (Rule π ν δ) → Outcome δ
  | [] => .off
  | r :: rs => if r.test p then (r.target.reach enter).andThen (follow enter p rs) else follow enter p rs

/-- What comes of a packet in a chain, when chains call each other to a depth. -/
def enter (tables : ν → List (Rule π ν δ)) (p : π) : ℕ → ν → Outcome δ
  | 0, _ => .deep
  | depth + 1, chain => follow (enter tables p depth) p (tables chain)

section Follow

variable {e : ν → Outcome δ} {p : π}

theorem follow_append (l l' : List (Rule π ν δ)) : follow e p (l ++ l') = (follow e p l).andThen (follow e p l') := by
  induction l with
  | nil => rfl
  | cons r l ih =>
    rw [List.cons_append, follow, follow, ih]
    split_ifs
    · rw [Outcome.andThen_assoc]
    · rfl

theorem follow_skip {l : List (Rule π ν δ)} (h : ∀ r ∈ l, r.test p = true → r.target.reach e = .off) :
    follow e p l = .off := by
  induction l with
  | nil => rfl
  | cons r l ih =>
    rw [follow, ih fun r' hr' => h r' (List.mem_cons_of_mem _ hr')]
    split_ifs with ht
    · rw [h r (List.mem_cons_self ..) ht, Outcome.off_andThen]
    · rfl

end Follow

/-! ### Edits -/

/-- A rule is put at the end of a chain, or in front of it. -/
structure Edit (π ν δ : Type*) where
  insert : Bool
  chain : ν
  rule : Rule π ν δ

variable [DecidableEq ν]

def Edit.apply (chain : ν) (l : List (Rule π ν δ)) (e : Edit π ν δ) : List (Rule π ν δ) :=
  if e.chain = chain then if e.insert then e.rule :: l else l ++ [e.rule] else l

/-- The chains, after edits one after the other. -/
def tables (es : List (Edit π ν δ)) (chain : ν) : List (Rule π ν δ) := es.foldl (Edit.apply chain) []

/-- What was put at the end of a chain. -/
def appended (chain : ν) (es : List (Edit π ν δ)) : List (Rule π ν δ) :=
  (es.filter fun e => e.chain = chain ∧ e.insert = false).map Edit.rule

/-- What was put in front of it. -/
def inserted (chain : ν) (es : List (Edit π ν δ)) : List (Rule π ν δ) :=
  (es.filter fun e => e.chain = chain ∧ e.insert = true).map Edit.rule

theorem appended_append (chain : ν) (es es' : List (Edit π ν δ)) :
    appended chain (es ++ es') = appended chain es ++ appended chain es' := by
  simp [appended]

theorem mem_appended {chain : ν} {es : List (Edit π ν δ)} {r : Rule π ν δ} :
    r ∈ appended chain es ↔ ∃ e ∈ es, e.chain = chain ∧ e.insert = false ∧ e.rule = r := by
  simp [appended, and_assoc]

theorem mem_inserted {chain : ν} {es : List (Edit π ν δ)} {r : Rule π ν δ} :
    r ∈ inserted chain es ↔ ∃ e ∈ es, e.chain = chain ∧ e.insert = true ∧ e.rule = r := by
  simp [inserted, and_assoc]

theorem foldl_apply (chain : ν) : ∀ (es : List (Edit π ν δ)) (l : List (Rule π ν δ)),
    es.foldl (Edit.apply chain) l = (inserted chain es).reverse ++ l ++ appended chain es
  | [], l => by simp [inserted, appended]
  | e :: es, l => by
    rw [List.foldl_cons, foldl_apply chain es, Edit.apply]
    by_cases hc : e.chain = chain <;> cases hi : e.insert <;> simp [inserted, appended, hc, hi]

/-- The rules in front decide nothing. -/
theorem follow_edits {e : ν → Outcome δ} {p : π} {chain : ν} {es : List (Edit π ν δ)}
    (h : ∀ r ∈ inserted chain es, r.test p = true → r.target.reach e = .off) :
    follow e p (tables es chain) = follow e p (appended chain es) := by
  rw [tables, foldl_apply, List.append_nil, follow_append,
    follow_skip fun r hr => h r (List.mem_reverse.mp hr), Outcome.off_andThen]

end Chain
