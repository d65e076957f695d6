/-
# Stages over a store of named values

A stage is a partial function on a store, of which `look` gives the value of each
name. It touches only names in a set (`Frame`), and what is said about it depends
on a list of names (`Agree`). Stages are put one behind the other: where the
second does not touch what the first is about, or the first what the second
reads, what holds of each holds of both.

* `Stage`: when a stage completes, as a condition on the store before it.
* `Settles`: a stage leaves a store on which it does nothing, so that it is
  idempotent (`Settles.idempotent`).
* `Table`: numbered entries of a store, each with a meaning. A stage that sets
  unused entries adds to what all of them mean (`Table.Extends`).
-/
import Mathlib.Data.Set.Basic
import Mathlib.Tactic

namespace Stages

variable {σ κ ν α β : Type*} (look : σ → κ → ν)

/-- Names outside `T` keep their values. -/
def Frame (T : κ → Bool) (s s' : σ) : Prop := ∀ k, T k = false → look s' k = look s k

/-- The names in the list have the same values. -/
def Agree (ks : List κ) (s s' : σ) : Prop := ∀ k ∈ ks, look s' k = look s k

variable {look} {T T₁ T₂ : κ → Bool} {s s' s'' : σ} {f f₁ f₂ : σ → Option σ}

theorem Frame.refl : Frame look T s s := fun _ _ => rfl

theorem Frame.trans (h₁ : Frame look T s s') (h₂ : Frame look T s' s'') : Frame look T s s'' :=
  fun k hk => (h₂ k hk).trans (h₁ k hk)

theorem Frame.mono (h : Frame look T₁ s s') (hT : ∀ k, T₁ k = true → T₂ k = true) : Frame look T₂ s s' := by
  intro k hk
  apply h
  rw [Bool.eq_false_iff] at hk ⊢
  exact fun ht => hk (hT k ht)

theorem Frame.andThen (h₁ : Frame look T₁ s s') (h₂ : Frame look T₂ s' s'') :
    Frame look (fun k => T₁ k || T₂ k) s s'' := by
  intro k hk
  rw [Bool.or_eq_false_iff] at hk
  exact (h₂ k hk.2).trans (h₁ k hk.1)

theorem Frame.agree (h : Frame look T s s') {ks : List κ} (hks : ∀ k ∈ ks, T k = false) :
    Agree look ks s s' := fun k hk => h k (hks k hk)

theorem Agree.left {ks₁ ks₂ : List κ} (h : Agree look (ks₁ ++ ks₂) s s') : Agree look ks₁ s s' :=
  fun k hk => h k (List.mem_append_left _ hk)

theorem Agree.right {ks₁ ks₂ : List κ} (h : Agree look (ks₁ ++ ks₂) s s') : Agree look ks₂ s s' :=
  fun k hk => h k (List.mem_append_right _ hk)

/-! ### Loops -/

/-- What every turn keeps. -/
theorem foldlM_inv {g : σ → α → Option σ} {I : σ → σ → Prop} (hrefl : ∀ s, I s s)
    (htrans : ∀ {s s' s''}, I s s' → I s' s'' → I s s'')
    (hstep : ∀ {s a s'}, g s a = some s' → I s s') :
    ∀ {l : List α} {s s' : σ}, l.foldlM g s = some s' → I s s' := by
  intro l
  induction l with
  | nil =>
    intro s s' h
    cases h
    exact hrefl s
  | cons a l ih =>
    intro s s' h
    rw [List.foldlM_cons] at h
    obtain ⟨s₁, h₁, h₂⟩ := Option.bind_eq_some_iff.mp h
    exact htrans (hstep h₁) (ih h₂)

theorem Frame.foldlM {g : σ → α → Option σ} (h : ∀ {s a s'}, g s a = some s' → Frame look T s s')
    {l : List α} (hl : l.foldlM g s = some s') : Frame look T s s' :=
  foldlM_inv (I := Frame look T) (fun _ => .refl) Frame.trans h hl

/-- A loop completes if every turn does, where a turn does not change what the
later ones ask for. -/
theorem isSome_foldlM {g : σ → α → Option σ} {ok : σ → α → Prop} {R : α → α → Prop}
    (hok : ∀ s a, (g s a).isSome = true ↔ ok s a)
    (hstable : ∀ {s a s' b}, R a b → g s a = some s' → (ok s' b ↔ ok s b)) {l : List α}
    (hl : l.Pairwise R) : ∀ s, (l.foldlM g s).isSome = true ↔ ∀ a ∈ l, ok s a := by
  induction l with
  | nil => simp
  | cons a l ih =>
    intro s
    obtain ⟨ha, hl'⟩ := List.pairwise_cons.mp hl
    rw [List.foldlM_cons, List.forall_mem_cons, ← hok s a]
    cases h : g s a with
    | none => simp
    | some s₁ =>
      show (l.foldlM g s₁).isSome = true ↔ _
      rw [ih hl' s₁]
      have hsame : (∀ b ∈ l, ok s₁ b) ↔ ∀ b ∈ l, ok s b :=
        forall₂_congr fun b hb => hstable (ha b hb) h
      simp [hsame]

/-- What a turn does for its own index, and no turn undoes, is done for all in the end. -/
theorem foldlM_done {g : σ → α → Option σ} {D : σ → α → Prop}
    (hdone : ∀ {s a s'}, g s a = some s' → D s' a)
    (hkeep : ∀ {s a s' b}, g s a = some s' → D s b → D s' b) :
    ∀ {l : List α} {s s' : σ}, l.foldlM g s = some s' → ∀ b, b ∈ l ∨ D s b → D s' b := by
  intro l
  induction l with
  | nil =>
    intro s s' h b hb
    cases h
    exact hb.resolve_left List.not_mem_nil
  | cons a l ih =>
    intro s s' h b hb
    rw [List.foldlM_cons] at h
    obtain ⟨s₁, h₁, h₂⟩ := Option.bind_eq_some_iff.mp h
    apply ih h₂
    rcases hb with hb | hb
    · rcases List.mem_cons.mp hb with rfl | hb
      · exact Or.inr (hdone h₁)
      · exact Or.inl hb
    · exact Or.inr (hkeep h₁ hb)

/-- A loop of which every turn does nothing. -/
theorem foldlM_idle {g : σ → α → Option σ} : ∀ {l : List α}, (∀ a ∈ l, g s a = some s) →
    l.foldlM g s = some s
  | [], _ => rfl
  | a :: l, h => by
    rw [List.foldlM_cons, h a List.mem_cons_self]
    exact foldlM_idle fun b hb => h b (List.mem_cons_of_mem a hb)

theorem foldl_done {g : σ → α → σ} {D : σ → α → Prop} (hdone : ∀ s a, D (g s a) a)
    (hkeep : ∀ {s a b}, D s b → D (g s a) b) {l : List α} (s : σ) : ∀ b ∈ l, D (l.foldl g s) b := by
  intro b hb
  have hloop : l.foldlM (fun s a => (some (g s a) : Option σ)) s = some (l.foldl g s) := List.foldlM_pure ..
  refine foldlM_done ?_ ?_ hloop b (Or.inl hb)
  · rintro s a s' ⟨⟩
    exact hdone s a
  · rintro s a s' b ⟨⟩ hb
    exact hkeep hb

theorem foldl_idle {g : σ → α → σ} : ∀ {l : List α}, (∀ a ∈ l, g s a = s) → l.foldl g s = s
  | [], _ => rfl
  | a :: l, h => by
    rw [List.foldl_cons, h a List.mem_cons_self]
    exact foldl_idle fun b hb => h b (List.mem_cons_of_mem a hb)

/-! ### Completion -/

/-- A stage that completes exactly if `ok` holds, which is about the names `reads`. -/
structure Stage (look : σ → κ → ν) (f : σ → Option σ) (T : κ → Bool) (ok : σ → Prop)
    (reads : List κ) : Prop where
  frame : ∀ {s s'}, f s = some s' → Frame look T s s'
  isSome_iff : ∀ s, (f s).isSome = true ↔ ok s
  stable : ∀ {s s'}, Agree look reads s s' → (ok s' ↔ ok s)

theorem Stage.andThen {ok₁ ok₂ : σ → Prop} {reads₁ reads₂ : List κ}
    (h₁ : Stage look f₁ T₁ ok₁ reads₁) (h₂ : Stage look f₂ T₂ ok₂ reads₂)
    (hreads : ∀ k ∈ reads₂, T₁ k = false) :
    Stage look (fun s => (f₁ s).bind f₂) (fun k => T₁ k || T₂ k) (fun s => ok₁ s ∧ ok₂ s)
      (reads₁ ++ reads₂) where
  frame h := by
    obtain ⟨s₁, hs₁, hs₂⟩ := Option.bind_eq_some_iff.mp h
    exact (h₁.frame hs₁).andThen (h₂.frame hs₂)
  isSome_iff s := by
    rw [← h₁.isSome_iff]
    cases h : f₁ s with
    | none => simp
    | some s₁ =>
      rw [Option.bind_some, h₂.isSome_iff, h₂.stable ((h₁.frame h).agree hreads)]
      simp
  stable h := and_congr (h₁.stable h.left) (h₂.stable h.right)

/-! ### Idempotence -/

/-- A stage that leaves a store in a state, about the names `holds`, in which it does nothing. -/
structure Settles (look : σ → κ → ν) (f : σ → Option σ) (T : κ → Bool) (settled : σ → Prop)
    (holds : List κ) : Prop where
  frame : ∀ {s s'}, f s = some s' → Frame look T s s'
  settles : ∀ {s s'}, f s = some s' → settled s'
  idle : ∀ {s}, settled s → f s = some s
  stable : ∀ {s s'}, Agree look holds s s' → settled s → settled s'

/-- Two stages, of which the second keeps what the first has settled. -/
theorem Settles.seq {settled₁ settled₂ : σ → Prop} {holds₁ holds₂ : List κ}
    (h₁ : Settles look f₁ T₁ settled₁ holds₁) (h₂ : Settles look f₂ T₂ settled₂ holds₂)
    (hkeep : ∀ {s s'}, f₂ s = some s' → settled₁ s → settled₁ s') :
    Settles look (fun s => (f₁ s).bind f₂) (fun k => T₁ k || T₂ k) (fun s => settled₁ s ∧ settled₂ s)
      (holds₁ ++ holds₂) where
  frame h := by
    obtain ⟨s₁, hs₁, hs₂⟩ := Option.bind_eq_some_iff.mp h
    exact (h₁.frame hs₁).andThen (h₂.frame hs₂)
  settles h := by
    obtain ⟨s₁, hs₁, hs₂⟩ := Option.bind_eq_some_iff.mp h
    exact ⟨hkeep hs₂ (h₁.settles hs₁), h₂.settles hs₂⟩
  idle h := by
    rw [h₁.idle h.1, Option.bind_some, h₂.idle h.2]
  stable hagree h := ⟨h₁.stable hagree.left h.1, h₂.stable hagree.right h.2⟩

/-- It does if it does not touch what that is about. -/
theorem Settles.andThen {settled₁ settled₂ : σ → Prop} {holds₁ holds₂ : List κ}
    (h₁ : Settles look f₁ T₁ settled₁ holds₁) (h₂ : Settles look f₂ T₂ settled₂ holds₂)
    (hholds : ∀ k ∈ holds₁, T₂ k = false) :
    Settles look (fun s => (f₁ s).bind f₂) (fun k => T₁ k || T₂ k) (fun s => settled₁ s ∧ settled₂ s)
      (holds₁ ++ holds₂) :=
  h₁.seq h₂ fun hs => h₁.stable ((h₂.frame hs).agree hholds)

theorem Settles.idempotent {settled : σ → Prop} {holds : List κ} (h : Settles look f T settled holds)
    (hs : f s = some s') : f s' = some s' := h.idle (h.settles hs)

/-! ### Tables -/

/-- Entries that are read each from its own name, and from some that all have in common. -/
structure Table (look : σ → κ → ν) (ι ρ β : Type*) where
  name : ι → κ
  common : List κ
  get : σ → ι → Option ρ
  meaning : ρ → Set β
  congr : ∀ {s s' : σ} {i : ι}, Agree look (name i :: common) s s' → get s' i = get s i

namespace Table

variable {ι ρ : Type*} (E : Table look ι ρ β)

/-- What an entry means; nothing if it is not read. -/
def entry (s : σ) (i : ι) : Set β := {x | ∃ r, E.get s i = some r ∧ x ∈ E.meaning r}

/-- What the entries mean. -/
def all (s : σ) : Set β := {x | ∃ i, x ∈ E.entry s i}

/-- `s'` means `A` in addition to what `s` means, and no entry of `s` is overwritten. -/
structure Extends (A : Set β) (s s' : σ) : Prop where
  adds : E.all s' = E.all s ∪ A
  keeps : ∀ i, (E.get s i).isSome = true → look s' (E.name i) = look s (E.name i)
  common : Agree look E.common s s'

variable {E} {A A₁ A₂ : Set β} {i : ι}

theorem agree_cons (h : look s' (E.name i) = look s (E.name i)) (hcommon : Agree look E.common s s') :
    Agree look (E.name i :: E.common) s s' := by
  intro k hk
  rcases List.mem_cons.mp hk with rfl | hk
  · exact h
  · exact hcommon k hk

theorem entry_congr (h : look s' (E.name i) = look s (E.name i)) (hcommon : Agree look E.common s s') :
    E.entry s' i = E.entry s i := by
  unfold entry
  rw [E.congr (agree_cons h hcommon)]

/-- The entries themselves are the same. -/
theorem Extends.of_same (h : ∀ i, look s' (E.name i) = look s (E.name i)) (hcommon : Agree look E.common s s') :
    E.Extends ∅ s s' where
  adds := by
    unfold all
    simp only [entry_congr (h _) hcommon, Set.union_empty]
  keeps i _ := h i
  common := hcommon

theorem Extends.of_frame (h : Frame look T s s') (hname : ∀ i, T (E.name i) = false)
    (hcommon : ∀ k ∈ E.common, T k = false) : E.Extends ∅ s s' :=
  .of_same (fun i => h _ (hname i)) (h.agree hcommon)

theorem Extends.refl : E.Extends ∅ s s := .of_same (fun _ => rfl) fun _ _ => rfl

theorem Extends.trans (h₁ : E.Extends A₁ s s') (h₂ : E.Extends A₂ s' s'') : E.Extends (A₁ ∪ A₂) s s'' where
  adds := by rw [h₂.adds, h₁.adds, Set.union_assoc]
  keeps i hi := by
    have hget := E.congr (agree_cons (h₁.keeps i hi) h₁.common)
    rw [h₂.keeps i (by rw [hget, hi]), h₁.keeps i hi]
  common k hk := (h₂.common k hk).trans (h₁.common k hk)

/-- What is added before or after what is only a change elsewhere. -/
theorem Extends.trans_same (h₁ : E.Extends A s s') (h₂ : E.Extends ∅ s' s'') : E.Extends A s s'' :=
  Set.union_empty A ▸ h₁.trans h₂

theorem Extends.same_trans (h₁ : E.Extends ∅ s s') (h₂ : E.Extends A s' s'') : E.Extends A s s'' :=
  Set.empty_union A ▸ h₁.trans h₂

/-- One entry is set that was not read before. -/
theorem Extends.of_unused {j : ι} (hj : E.get s j = none)
    (h : ∀ i, i ≠ j → look s' (E.name i) = look s (E.name i)) (hcommon : Agree look E.common s s') :
    E.Extends (E.entry s' j) s s' where
  adds := by
    ext x
    constructor
    · rintro ⟨i, hx⟩
      by_cases hij : i = j
      · exact Or.inr (hij ▸ hx)
      · exact Or.inl ⟨i, entry_congr (h i hij) hcommon ▸ hx⟩
    · rintro (⟨i, hx⟩ | hx)
      · by_cases hij : i = j
        · obtain ⟨r, hr, -⟩ := hx
          rw [hij, hj] at hr
          cases hr
        · exact ⟨i, (entry_congr (h i hij) hcommon).symm ▸ hx⟩
      · exact ⟨j, hx⟩
  keeps i hi := by
    apply h
    rintro rfl
    rw [hj] at hi
    cases hi
  common := hcommon

/-- A loop adds what its turns add, where a turn does not change what the later ones add. -/
theorem Extends.foldlM {g : σ → α → Option σ} {B : σ → α → Set β} {R : α → α → Prop}
    (hstep : ∀ {s a s'}, g s a = some s' → E.Extends (B s a) s s')
    (hstable : ∀ {s a s' b}, R a b → g s a = some s' → B s' b = B s b) {l : List α} (hl : l.Pairwise R) :
    ∀ {s s' : σ}, l.foldlM g s = some s' → E.Extends {x | ∃ a ∈ l, x ∈ B s a} s s' := by
  induction l with
  | nil =>
    intro s s' h
    cases h
    convert Extends.refl
    simp
  | cons a l ih =>
    intro s s' h
    obtain ⟨ha, hl'⟩ := List.pairwise_cons.mp hl
    rw [List.foldlM_cons] at h
    obtain ⟨s₁, h₁, h₂⟩ := Option.bind_eq_some_iff.mp h
    convert (hstep h₁).trans (ih hl' h₂) using 1
    ext x
    have hsame : (∃ b ∈ l, x ∈ B s₁ b) ↔ ∃ b ∈ l, x ∈ B s b :=
      exists_congr fun b => and_congr_right fun hb => by rw [hstable (ha b hb) h₁]
    simp [hsame]

end Table

end Stages
