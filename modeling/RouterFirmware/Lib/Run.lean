/-
# Runs of a labelled transition system

A system is a relation `step s e s'` whose label `e` says which operation was
called and what it returned. `Trace step s es s'` is a finite run from `s`
with the labels `es`, oldest first. What holds of every run is proved by
`Trace.inv`, whose invariant may speak of the history: it holds of the empty
history and every step keeps it. `Trace.split` opens a run at one of its
labels, so that a statement about each call of a run is one about a step from
a reachable state. Where the step is a partial function, `exec` runs it, and
`execOut` collects what its steps give out; `execOut_sim` is the simulation
rule for two such runs.
-/
import Mathlib.Data.List.Basic

namespace Run

variable {σ ε : Type*}

/-- `Trace step s es s'`: the steps labelled `es`, in order, lead from `s` to `s'`. -/
inductive Trace (step : σ → ε → σ → Prop) (s : σ) : List ε → σ → Prop
  | nil : Trace step s [] s
  | snoc {es : List ε} {s' s'' : σ} {e : ε} :
      Trace step s es s' → step s' e s'' → Trace step s (es ++ [e]) s''

variable {step : σ → ε → σ → Prop} {s s' : σ} {es : List ε}

/-- An invariant of history and state that every step keeps holds after every run. -/
theorem Trace.inv {I : List ε → σ → Prop} (h0 : I [] s)
    (hs : ∀ es s' e s'', I es s' → step s' e s'' → I (es ++ [e]) s'')
    (h : Trace step s es s') : I es s' := by
  induction h with
  | nil => exact h0
  | snoc _ hstep ih => exact hs _ _ _ _ ih hstep

/-- Where a label stands in a history that has just grown by one. -/
theorem eq_of_snoc {pre post : List ε} {e q : ε} (h : es ++ [e] = pre ++ q :: post) :
    pre = es ∧ q = e ∧ post = [] ∨ ∃ post', post = post' ++ [e] ∧ es = pre ++ q :: post' := by
  rcases List.eq_nil_or_concat post with rfl | ⟨post', e', rfl⟩
  · obtain ⟨h1, h2⟩ := List.append_inj' h rfl
    exact Or.inl ⟨h1.symm, (List.singleton_inj.mp h2).symm, rfl⟩
  · have h' : es ++ [e] = (pre ++ q :: post') ++ [e'] := by
      rw [h, List.concat_eq_append, List.append_assoc, List.cons_append]
    obtain ⟨h1, h2⟩ := List.append_inj' h' rfl
    rw [List.concat_eq_append, List.singleton_inj.mp h2]
    exact Or.inr ⟨post', rfl, h1⟩

/-- A run, opened at one of its labels. -/
theorem Trace.split (h : Trace step s es s') : ∀ {pre post : List ε} {e : ε},
    es = pre ++ e :: post →
    ∃ s₁ s₂, Trace step s pre s₁ ∧ step s₁ e s₂ ∧ Trace step s₂ post s' := by
  induction h with
  | nil =>
    intro pre post e he
    simp at he
  | @snoc es s' s'' e' htr hstep ih =>
    intro pre post e he
    rcases eq_of_snoc he with ⟨rfl, rfl, rfl⟩ | ⟨post', rfl, he'⟩
    · exact ⟨s', s'', htr, hstep, .nil⟩
    · obtain ⟨s₁, s₂, h1, h2, h3⟩ := ih he'
      exact ⟨s₁, s₂, h1, h2, h3.snoc hstep⟩

/-- A step in front of a run. -/
theorem Trace.cons {s₁ : σ} {e : ε} (h1 : step s e s₁) (h : Trace step s₁ es s') :
    Trace step s (e :: es) s' := by
  induction h with
  | nil => exact Trace.nil.snoc h1
  | snoc _ hstep ih => exact ih.snoc hstep

theorem Trace.mono {step' : σ → ε → σ → Prop} (hs : ∀ s e s', step s e s' → step' s e s') (h : Trace step s es s') :
    Trace step' s es s' := by
  induction h with
  | nil => exact .nil
  | snoc _ hstep ih => exact ih.snoc (hs _ _ _ hstep)

/-- The labels, one after the other, by a step function. -/
def exec (f : σ → ε → Option σ) : List ε → σ → Option σ
  | [], s => some s
  | e :: es, s => (f s e).bind (exec f es)

/-- The steps, one after the other, with what each gives out. -/
def execOut {ο : Type*} (f : σ → ε → Option (σ × ο)) : List ε → σ → Option (σ × List ο)
  | [], s => some (s, [])
  | e :: es, s => (f s e).bind fun r => (execOut f es r.1).map fun r' => (r'.1, r.2 :: r'.2)

section Output

variable {ο : Type*} {f : σ → ε → Option (σ × ο)} {os : List ο}

theorem execOut_cons_iff {e : ε} {s : σ} : execOut f (e :: es) s = some (s', os) ↔
    ∃ s₁ o os', f s e = some (s₁, o) ∧ execOut f es s₁ = some (s', os') ∧ os = o :: os' := by
  simp only [execOut, Option.bind_eq_some_iff, Option.map_eq_some_iff, Prod.exists, Prod.mk.injEq]
  constructor
  · rintro ⟨s₁, o, h1, s₂, os', h2, rfl, rfl⟩
    exact ⟨s₁, o, os', h1, h2, rfl⟩
  · rintro ⟨s₁, o, os', h1, h2, rfl⟩
    exact ⟨s₁, o, h1, s', os', h2, rfl, rfl⟩

/-- A run in two parts. -/
theorem execOut_append_iff {es' : List ε} : ∀ {es : List ε} {s s' : σ} {os : List ο},
    execOut f (es ++ es') s = some (s', os) ↔
      ∃ s₁ os₁ os₂, execOut f es s = some (s₁, os₁) ∧ execOut f es' s₁ = some (s', os₂) ∧ os = os₁ ++ os₂
  | [], s, s', os => by simp [execOut]
  | e :: es, s, s', os => by
    rw [List.cons_append, execOut_cons_iff]
    constructor
    · rintro ⟨s₁, o, os', h1, h2, rfl⟩
      obtain ⟨s₂, os₁, os₂, h3, h4, rfl⟩ := execOut_append_iff.mp h2
      exact ⟨s₂, o :: os₁, os₂, execOut_cons_iff.mpr ⟨s₁, o, os₁, h1, h3, rfl⟩, h4, rfl⟩
    · rintro ⟨s₂, os', os₂, h1, h4, rfl⟩
      obtain ⟨s₁, o, os₁, h0, h3, rfl⟩ := execOut_cons_iff.mp h1
      exact ⟨s₁, o, os₁ ++ os₂, h0, execOut_append_iff.mpr ⟨s₂, os₁, os₂, h3, h4, rfl⟩, rfl⟩

theorem length_execOut : ∀ {es : List ε} {s s' : σ} {os : List ο},
    execOut f es s = some (s', os) → os.length = es.length
  | [], s, s', os, h => by
    cases Option.some.inj h
    rfl
  | e :: es, s, s', os, h => by
    obtain ⟨s₁, o, os', -, h2, rfl⟩ := execOut_cons_iff.mp h
    simp [length_execOut h2]

/-- Two states that every step takes to two states of the same kind, with the same output, cannot be told apart. -/
theorem execOut_sim {R : σ → σ → Prop}
    (hR : ∀ s t e, R s t → Option.Rel (fun a b => R a.1 b.1 ∧ a.2 = b.2) (f s e) (f t e)) :
    ∀ (es : List ε) {s t : σ}, R s t →
      Option.Rel (fun a b => R a.1 b.1 ∧ a.2 = b.2) (execOut f es s) (execOut f es t)
  | [], s, t, h => .some ⟨h, rfl⟩
  | e :: es, s, t, h => by
    have h1 := hR s t e h
    simp only [execOut]
    generalize f s e = a, f t e = b at h1
    cases h1 with
    | none => exact .none
    | @some a b hab =>
      have h2 := execOut_sim hR es hab.1
      simp only [Option.bind_some]
      generalize execOut f es a.1 = a', execOut f es b.1 = b' at h2
      cases h2 with
      | none => exact .none
      | some hab' => exact .some ⟨hab'.1, by simp [hab.2, hab'.2]⟩

end Output

theorem trace_of_exec {f : σ → ε → Option σ} : ∀ {es : List ε} {s : σ},
    exec f es s = some s' → Trace (fun s e s' => f s e = some s') s es s'
  | [], s, h => by
    cases Option.some.inj h
    exact .nil
  | e :: es, s, h => by
    obtain ⟨s₁, h1, h2⟩ := Option.bind_eq_some_iff.mp h
    exact (trace_of_exec h2).cons h1

/-- A run, found by running it. -/
theorem exists_trace {f : σ → ε → Option σ} (h : (exec f es s).isSome = true) :
    ∃ s', Trace (fun s e s' => f s e = some s') s es s' := by
  obtain ⟨s', hs'⟩ := Option.isSome_iff_exists.mp h
  exact ⟨s', trace_of_exec hs'⟩

end Run
