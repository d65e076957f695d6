/-
# The order of a filter chain

Entries that drop go to the head of their chain, default policies to its end,
and entries that accept behind the entries that drop (`insert_entry`). The last
looks for the first entry that does not drop, which is the right place only as
long as no other entry stands among those that drop. `netconf_clamp_mss_to_pmtu`
puts one there: its TCPMSS entry goes to the head of FORWARD.
-/
import RouterFirmware.Lib.Run
import RouterFirmware.Netconf.Find

namespace Router
namespace Netconf

open Run

/-- An entry that drops and is no default policy. -/
def Entry.isFirm (e : Entry) : Bool := e.isDrop && !e.isDefault

/-- `a` may stand in front of `b`: it does not accept what `b` would drop, and
is a default policy only if `b` is. -/
def MayPrecede (a b : Entry) : Prop :=
  ¬(a.isAccept = true ∧ b.isFirm = true) ∧ ¬(a.isDefault = true ∧ b.isDefault = false)

/-- Entries that drop, then entries that accept, and default policies at the end. -/
def Ordered (l : List Entry) : Prop := l.Pairwise MayPrecede

/-- The chains of the filter table. -/
def Chain.isFilter : Chain → Bool
  | .input => true
  | .forward => true
  | .output => true
  | _ => false

/-- The calls. -/
inductive Call where
  | add (errno : ℤ) (fw : Fw)
  | addFilter (errno : ℤ) (fws : List Fw)
  | del (fw : Fw)
  | clamp

/-- What they do to the tables. -/
def Call.run (t : Tables) : Call → Tables
  | .add errno fw => (netconfAddFw errno t fw).2
  | .addFilter errno fws => (netconfManipFw errno t false fws).2
  | .del fw => (netconfDelFw t fw).2
  | .clamp => netconfClampMssToPmtu t

/-- The entries of a chain that drop stand together at its head. -/
def FirmFirst (l : List Entry) : Prop :=
  ∀ x ∈ l.drop (l.findIdx fun rule => !rule.isDrop || rule.isDefault), x.isFirm = false

/-- A record that accepts, and is no default policy, is added only to a chain
whose entries that drop stand together at the head. -/
def AddMeets (t : Tables) (fw : Fw) : Prop :=
  ∀ c, fw.act.chain = some c → validIpproto fw.m.ipproto = true → fw.m.validTime = true →
    (buildEntry fw).isAccept = true → fw.m.blank = false → FirmFirst (t c)

/-- A list of records, each added to what those before it leave. -/
def AddsMeet (errno : ℤ) (t : Tables) : List Fw → Prop
  | [] => True
  | fw :: rest =>
    AddMeets t fw ∧ ((netconfAddFw errno t fw).1 = 0 → AddsMeet errno (netconfAddFw errno t fw).2 rest)

def Call.meets (t : Tables) : Call → Prop
  | .add _ fw => AddMeets t fw
  | .addFilter errno fws => AddsMeet errno t fws
  | _ => True

/-! ### One entry -/

/-- An entry is put into an ordered chain. -/
theorem Ordered.insert {l : List Entry} (h : Ordered l) {e : Entry}
    (hkind : e.isDefault = true ∨ e.isDrop = true ∨ e.isAccept = true)
    (hmeets : e.isAccept = true → e.isDefault = false → FirmFirst l) : Ordered (insertEntry e l) := by
  have hsplit := List.take_append_drop (insertAt e l) l
  unfold Ordered at h ⊢
  rw [← hsplit] at h
  obtain ⟨htake, hdrop, hcross⟩ := List.pairwise_append.mp h
  -- what stands in front of the entry, and what stands behind it
  suffices hplace : (∀ x ∈ l.take (insertAt e l), MayPrecede x e) ∧
      ∀ y ∈ l.drop (insertAt e l), MayPrecede e y by
    rw [insertEntry_eq, List.pairwise_append]
    refine ⟨htake, List.pairwise_cons.mpr ⟨hplace.2, hdrop⟩, fun x hx y hy => ?_⟩
    rcases List.mem_cons.mp hy with rfl | hy
    · exact hplace.1 x hx
    · exact hcross x hx y hy
  cases hdef : e.isDefault with
  | true =>
    have hat : insertAt e l = l.length := by
      unfold insertAt
      rw [hdef]
      rfl
    rw [hat, List.drop_length]
    refine ⟨fun x _ => ⟨?_, ?_⟩, fun y hy => absurd hy List.not_mem_nil⟩
    · simp [Entry.isFirm, hdef]
    · simp [hdef]
  | false =>
    rcases hkind with hdef' | hfirm | hacc
    · rw [hdef] at hdef'
      cases hdef'
    · have hat : insertAt e l = 0 := by
        unfold insertAt
        rw [hdef, hfirm]
        rfl
      rw [hat]
      refine ⟨fun x hx => absurd hx List.not_mem_nil, fun y _ => ⟨?_, ?_⟩⟩
      · rintro ⟨hacc, -⟩
        rw [isAccept_not_isDrop hacc] at hfirm
        cases hfirm
      · simp [hdef]
    · have hnodrop := isAccept_not_isDrop hacc
      have hat : insertAt e l = l.findIdx fun rule => !rule.isDrop || rule.isDefault := by
        unfold insertAt
        rw [hdef, hnodrop, hacc]
        rfl
      refine ⟨fun x hx => ⟨?_, ?_⟩, fun y hy => ⟨?_, ?_⟩⟩
      · simp [Entry.isFirm, hnodrop]
      · simp [(front_of_accept hdef hacc hx).2]
      · rw [hat] at hy
        simp [hmeets hacc hdef y hy]
      · simp [hdef]

theorem Ordered.eraseIdx {l : List Entry} (h : Ordered l) (i : ℕ) : Ordered (l.eraseIdx i) :=
  List.Pairwise.sublist (List.eraseIdx_sublist l i) h

/-- The clamp is neither a default policy nor does it accept, and may stand at the head. -/
theorem Ordered.clamp {l : List Entry} (h : Ordered l) : Ordered (clampEntry :: l) := by
  have hacc : clampEntry.isAccept = false := rfl
  have hdef : clampEntry.isDefault = false := rfl
  refine List.pairwise_cons.mpr ⟨fun y _ => ⟨?_, ?_⟩, h⟩
  · simp [hacc]
  · simp [hdef]

/-! ### One call, and a run -/

/-- Every filter chain is in order. -/
def AllOrdered (t : Tables) : Prop := ∀ c, c.isFilter = true → Ordered (t c)

/-- One chain is replaced. -/
theorem AllOrdered.update {t : Tables} (h : AllOrdered t) {c : Chain} {l : List Entry}
    (hl : c.isFilter = true → Ordered l) : AllOrdered (Function.update t c l) := by
  intro c' hc'
  by_cases he : c' = c
  · subst he
    rw [Function.update_self]
    exact hl hc'
  · rw [Function.update_of_ne he]
    exact h c' hc'

/-- What goes to a filter chain drops or accepts. -/
theorem kind_of_isFilter {fw : Fw} {c : Chain} (hc : fw.act.chain = some c) (hf : c.isFilter = true) :
    (buildEntry fw).isDrop = true ∨ (buildEntry fw).isAccept = true := by
  cases hact : fw.act with
  | filter target dir =>
    rcases filter_kind hact with h | h
    · exact Or.inl h
    · exact Or.inr h.1
  | nat target ipaddr ports =>
    rw [hact] at hc
    cases hc
    cases target <;> cases hf
  | app proto dport toPorts =>
    rw [hact] at hc
    cases hc
    cases hf
  | other =>
    rw [hact] at hc
    cases hc

theorem AllOrdered.add {t : Tables} (h : AllOrdered t) {fw : Fw} (hmeets : AddMeets t fw) (errno : ℤ) :
    AllOrdered (netconfAddFw errno t fw).2 := by
  rcases netconfAddFw_cases errno t fw with ⟨hproto, htime, c, hc, hadd⟩ | ⟨-, hsame⟩
  · rw [hadd]
    apply h.update
    intro hf
    apply (h c hf).insert (Or.inr (kind_of_isFilter hc hf))
    intro hacc hdef
    rw [isDefault_buildEntry] at hdef
    exact hmeets c hc hproto htime hacc hdef
  · rw [hsame]
    exact h

theorem AllOrdered.addFilter (errno : ℤ) {fws : List Fw} : ∀ {t : Tables}, AllOrdered t →
    AddsMeet errno t fws → AllOrdered (netconfManipFw errno t false fws).2 := by
  induction fws with
  | nil => exact fun h _ => h
  | cons fw rest ih =>
    intro t h hmeets
    have hadd := h.add hmeets.1 errno
    show AllOrdered (if (netconfAddFw errno t fw).1 ≠ 0 then netconfAddFw errno t fw
      else netconfManipFw errno (netconfAddFw errno t fw).2 false rest).2
    split_ifs with hr
    · exact hadd
    · exact ih hadd (hmeets.2 (not_not.mp hr))

theorem AllOrdered.del {t : Tables} (h : AllOrdered t) (fw : Fw) : AllOrdered (netconfDelFw t fw).2 := by
  unfold netconfDelFw
  by_cases hnum : netconfFwIndex t fw < 0
  · simp only [hnum, if_true]
    exact h
  · simp only [hnum, if_false]
    cases fw.act.chain with
    | none => exact h
    | some c => exact h.update fun hf => (h c hf).eraseIdx _

/-- One call keeps the order. -/
theorem AllOrdered.call {t : Tables} (h : AllOrdered t) {a : Call} (hmeets : a.meets t) :
    AllOrdered (a.run t) := by
  cases a with
  | add errno fw => exact h.add hmeets errno
  | addFilter errno fws => exact h.addFilter errno hmeets
  | del fw => exact h.del fw
  | clamp => exact h.update fun hf => (h _ hf).clamp

/-- **The order of the chains**: from empty tables, as long as every record that
accepts finds the entries that drop together at the head of its chain, every
filter chain has the entries that drop in front of those that accept, and the
default policies behind all others. -/
theorem filter_chains_ordered {as : List Call} {t : Tables}
    (hrun : Trace (fun t a t' => a.meets t ∧ a.run t = t') (fun _ => []) as t) {c : Chain}
    (hc : c.isFilter = true) : Ordered (t c) := by
  have hall : AllOrdered t := by
    apply hrun.inv (I := fun _ t => AllOrdered t)
    · exact fun _ _ => List.Pairwise.nil
    · rintro _ t a t' h ⟨hmeets, rfl⟩
      exact h.call hmeets
  exact hall c hc

/-- TCP to port 80 is let through. -/
def acceptRule : Fw := { anyRule with act := .filter .accept (some .forward) }

/-- The accepted port is added in front of the clamp, and the dropped one in front of it. -/
theorem filter_chains_ordered_web : ∃ t : Tables,
    Trace (fun t a t' => Call.meets t a ∧ Call.run t a = t') (fun _ => [])
      [.add 0 acceptRule, .clamp, .add 0 anyRule] t ∧
    t .forward = [buildEntry anyRule, clampEntry, buildEntry acceptRule] ∧ Ordered (t .forward) := by
  have hmeets : AddMeets (fun _ => []) acceptRule := by
    intro c _ _ _ _ _ x hx
    cases hx
  have hmeets' : ∀ t, AddMeets t anyRule := by
    intro t c _ _ _ hacc
    cases hacc
  have hrun : Trace (fun t a t' => Call.meets t a ∧ Call.run t a = t') (fun _ => [])
      [.add 0 acceptRule, .clamp, .add 0 anyRule] _ :=
    .cons ⟨hmeets, rfl⟩ (.cons ⟨trivial, rfl⟩ (.cons ⟨hmeets' _, rfl⟩ .nil))
  refine ⟨_, hrun, by decide, filter_chains_ordered hrun rfl⟩

/-- A port is dropped, the clamp put in front of it, and the port accepted in front of both. -/
theorem clamped_chain_disordered : ∃ t : Tables,
    Trace (fun t a t' => Call.run t a = t') (fun _ => [])
      [.add 0 anyRule, .clamp, .add 0 acceptRule] t ∧
    t .forward = [buildEntry acceptRule, clampEntry, buildEntry anyRule] ∧ ¬Ordered (t .forward) := by
  have hchain : Call.run (Call.run (Call.run (fun _ => []) (.add 0 anyRule)) .clamp)
      (.add 0 acceptRule) .forward = [buildEntry acceptRule, clampEntry, buildEntry anyRule] := by
    decide
  refine ⟨_, .cons rfl (.cons rfl (.cons rfl .nil)), hchain, ?_⟩
  rw [hchain]
  intro hordered
  obtain ⟨hfirst, -⟩ := List.pairwise_cons.mp hordered
  exact (hfirst (buildEntry anyRule) (by decide)).1 ⟨by decide, by decide⟩

end Netconf
end Router
