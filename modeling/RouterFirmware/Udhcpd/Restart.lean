/-
# The leases over a restart

`write_leases` writes the records that name an address, each with the time that is left to it, and the server that
starts from the file adds them one by one to an empty table. `restart_of_run` says what becomes of them: every record
comes back with its client and its address, its time runs on from the new start, and nothing else is in the table. The
host names are written, and lost when the file is read.

The file is read with the addresses compared as they stand in memory, so the range has to hold in that order too. A
time left that does not fit on the new clock is left out.
-/
import RouterFirmware.Udhcpd.Exclusive

namespace Router
namespace Udhcpd

open Igd.IpConfig (ntohl)

variable {n : ℕ} {cfg : ServerConfig} {now : Word} {s t : Table n}

/-- The client, address and time left in a file. -/
abbrev Entry := Chaddr × Word × Word

/-- The record that `add_lease` makes of an entry in a free slot. -/
def leaseOf (now : Word) (x : Entry) : DhcpOfferedAddr :=
  { zeroed with chaddr := x.1, yiaddr := x.2.1, expires := if x.2.2 = forever then forever else now + x.2.2 }

/-- Two entries of different clients and addresses. -/
def Apart (x y : Entry) : Prop := x.2.1 ≠ y.2.1 ∧ (x.1 ≠ blankChaddr → x.1 ≠ y.1)

/-- The table holds the entries, and nothing else. -/
structure Holds (now : Word) (entries : List Entry) (s : Table n) : Prop where
  only : ∀ i, s i = zeroed ∨ ∃ x ∈ entries, s i = leaseOf now x
  all : ∀ x ∈ entries, ∃ i, s i = leaseOf now x

/-- A table that holds fewer entries than it has slots has a free one. -/
theorem Holds.free {entries : List Entry} (h : Holds now entries s) (hu : Unique s) (ha : ∀ x ∈ entries, x.2.1 ≠ 0)
    (hlen : entries.length < n) : ∃ j, s j = zeroed := by
  by_contra hfull
  rw [not_exists] at hfull
  choose f hf heq using fun i => (h.only i).resolve_left (hfull i)
  have hinj : Function.Injective f := fun i j hij =>
    hu.slot (by rw [heq i]; exact ha _ (hf i)) (by rw [heq i, heq j, hij])
  have hcard : (Finset.univ.image f).card = n := by rw [Finset.card_image_of_injective _ hinj, Finset.card_fin]
  have hsub : Finset.univ.image f ⊆ entries.toFinset := by
    intro x hx
    obtain ⟨i, -, rfl⟩ := Finset.mem_image.mp hx
    exact List.mem_toFinset.mpr (hf i)
  have hle := (Finset.card_le_card hsub).trans entries.toFinset_card_le
  omega

/-- An entry of another client and another address goes into a free slot. -/
theorem Holds.add {entries : List Entry} {x : Entry} (h : Holds now entries s) (hu : Unique s) (hnow : now ≠ 0)
    (hlen : entries.length < n) (ha : ∀ y ∈ entries, y.2.1 ≠ 0 ∧ ¬(leaseOf now y).expires < now) (hx : x.2.1 ≠ 0)
    (hapart : ∀ y ∈ entries, Apart y x) :
    ∃ j s', addLease now x.1 x.2.1 x.2.2 s = (some j, s') ∧ Holds now (entries ++ [x]) s' := by
  have hclears : ∀ i, clears x.1 x.2.1 (s i) = false := by
    intro i
    simp only [clears, Bool.or_eq_false_iff, Bool.and_eq_false_iff, decide_eq_false_iff_not]
    rcases h.only i with hz | ⟨y, hy, heq⟩
    · rw [hz]
      refine ⟨?_, .inr (Ne.symm hx)⟩
      by_cases hc : x.1 = blankChaddr
      · exact .inl (not_not.mpr hc)
      · exact .inr fun he => hc he.symm
    · rw [heq]
      obtain ⟨h1, h2⟩ := hapart y hy
      refine ⟨?_, .inr h1⟩
      by_cases hc : x.1 = blankChaddr
      · exact .inl (not_not.mpr hc)
      · exact .inr fun he => h2 (fun hb => hc (he.symm.trans hb)) he
  have hsame : (fun i => cleared x.1 x.2.1 (s i)) = s := by
    funext i
    simp [cleared, hclears i]
  obtain ⟨k, hk⟩ := h.free hu (fun y hy => (ha y hy).1) hlen
  rcases addLease_cases now x.1 x.2.1 x.2.2 s with ⟨i, hi, -⟩ | ⟨-, ⟨hold, -⟩ | ⟨j, hj, heq⟩⟩
  · exact absurd hi (by rw [hclears i]; exact Bool.false_ne_true)
  · have hold' := hold k
    rw [congrFun hsame k, hk] at hold'
    exact absurd ((BitVec.pos_iff_ne_zero now).mpr hnow) hold'
  · rw [congrFun hsame j] at hj heq
    have hzj : s j = zeroed := by
      rcases h.only j with hz | ⟨y, hy, hyj⟩
      · exact hz
      · exact absurd (by rwa [← hyj]) (ha y hy).2
    refine ⟨j, _, heq, fun i => ?_, fun y hy => ?_⟩
    · rw [hsame]
      rcases eq_or_ne i j with rfl | hij
      · rw [Function.update_self, hzj]
        exact .inr ⟨x, List.mem_append_right _ List.mem_cons_self, rfl⟩
      · rw [Function.update_of_ne hij]
        rcases h.only i with hz | ⟨y, hy, hyi⟩
        · exact .inl hz
        · exact .inr ⟨y, List.mem_append_left _ hy, hyi⟩
    · rw [hsame]
      rcases List.mem_append.mp hy with hy | hy
      · obtain ⟨i, hi⟩ := h.all y hy
        have hij : i ≠ j := by
          rintro rfl
          exact (ha y hy).1 (congrArg DhcpOfferedAddr.yiaddr (hi.symm.trans hzj))
        exact ⟨i, by rw [Function.update_of_ne hij, hi]⟩
      · cases List.mem_singleton.mp hy
        exact ⟨j, by rw [Function.update_self, hzj]; rfl⟩

/-- Entries that are added one after the other. -/
theorem addAll_holds (hnow : now ≠ 0) : ∀ {rest entries : List Entry} {k : ℕ} {s : Table n},
    Holds now entries s → Unique s → (entries ++ rest).Pairwise Apart →
      (∀ x ∈ entries ++ rest, x.2.1 ≠ 0 ∧ ¬(leaseOf now x).expires < now) → (entries ++ rest).length ≤ n →
        rest.length ≤ k → Holds now (entries ++ rest) (addAll now k rest s)
  | [], entries, 0, s, h, _, _, _, _, _ => by
    rw [List.append_nil]
    exact h
  | [], entries, k + 1, s, h, _, _, _, _, _ => by
    rw [List.append_nil]
    exact h
  | x :: rest, entries, k + 1, s, h, hu, hapart, ha, hlen, hk => by
    rw [List.length_append, List.length_cons] at hlen
    obtain ⟨j, s', hadd, h'⟩ := h.add hu hnow (by omega) (fun y hy => ha y (List.mem_append_left _ hy))
      (ha x (List.mem_append_right _ List.mem_cons_self)).1
      fun y hy => (List.pairwise_append.mp hapart).2.2 y hy x List.mem_cons_self
    have hu' : Unique s' := by
      have hadded : Unique (addLease now x.1 x.2.1 x.2.2 s).2 := unique_addLease hu
      rwa [hadd] at hadded
    have hassoc : entries ++ x :: rest = entries ++ [x] ++ rest := by simp
    unfold addAll
    rw [hadd]
    dsimp only
    rw [hassoc] at hapart ha ⊢
    refine addAll_holds hnow h' hu' hapart ha ?_ (by simpa using hk)
    simp only [List.length_append, List.length_cons, List.length_nil]
    omega

theorem not_forever_lt (x : Word) : ¬forever < x := by
  rw [BitVec.lt_def, show forever.toNat = 2 ^ 32 - 1 from rfl]
  have := x.isLt
  omega

/-- The record that a restart makes of a record: written at `now`, read at `now'`. -/
def restored (now now' : Word) (l : DhcpOfferedAddr) : DhcpOfferedAddr :=
  { zeroed with
    chaddr := l.chaddr
    yiaddr := l.yiaddr
    expires := if l.expires = forever then forever else if leaseExpired now l then now' else now' + (l.expires - now) }

/-- The time left to a lease fits on the clock of the new start. -/
def FitsClock (now now' : Word) (l : DhcpOfferedAddr) : Prop :=
  l.expires ≠ forever → leaseExpired now l = false → now'.toNat + (l.expires - now).toNat < 2 ^ 32 - 1

theorem restart_keeps (hu : Unique t) (cfg : ServerConfig) (hremaining : cfg.remaining = true) (now now' : Word)
    (hnow : now' ≠ 0) (hrange : ∀ i, (t i).yiaddr ≠ 0 → cfg.start ≤ (t i).yiaddr ∧ (t i).yiaddr ≤ cfg.last)
    (hclock : ∀ i, (t i).yiaddr ≠ 0 → FitsClock now now' (t i)) :
    (∀ i, (t i).yiaddr ≠ 0 → ∃ j, (start cfg now' [] (writeLeases cfg now t) : Table n) j = restored now now' (t i)) ∧
      ∀ j, (start cfg now' [] (writeLeases cfg now t) : Table n) j = zeroed ∨ ∃ i, (t i).yiaddr ≠ 0 ∧
        (start cfg now' [] (writeLeases cfg now t) : Table n) j = restored now now' (t i) := by
  set slots := (List.finRange n).filter fun i => (t i).yiaddr ≠ 0 with hslots
  have hmem : ∀ i, i ∈ slots ↔ (t i).yiaddr ≠ 0 := by simp [hslots]
  set entry : Fin n → Entry := fun i => ((t i).chaddr, (t i).yiaddr, writtenTime cfg now (t i)) with hentry
  have hlease : ∀ i, (t i).yiaddr ≠ 0 → leaseOf now' (entry i) = restored now now' (t i) ∧
      ¬(leaseOf now' (entry i)).expires < now' := by
    intro i hi
    by_cases hforever : (t i).expires = forever
    · have hexp : leaseExpired now (t i) = false := by
        rw [leaseExpired, hforever, decide_eq_false_iff_not]
        exact not_forever_lt now
      have htime : writtenTime cfg now (t i) = forever := by simp [writtenTime, hremaining, hexp, hforever]
      refine ⟨by simp [leaseOf, restored, htime, hforever, hentry], ?_⟩
      simp only [leaseOf, htime, hentry, if_true]
      exact not_forever_lt now'
    · by_cases hexp : leaseExpired now (t i) = true
      · have htime : writtenTime cfg now (t i) = 0 := by simp [writtenTime, hremaining, hexp]
        have hzero : ¬0#32 = forever := by decide
        refine ⟨by simp [leaseOf, restored, htime, hforever, hexp, hzero, hentry], ?_⟩
        simp [leaseOf, htime, hentry, hzero]
      · have hleft := hclock i hi hforever (Bool.not_eq_true _ ▸ hexp)
        have htime : writtenTime cfg now (t i) = (t i).expires - now := by simp [writtenTime, hremaining, hexp, hforever]
        have hne : (t i).expires - now ≠ forever := by
          intro heq
          rw [heq] at hleft
          have : (forever : Word).toNat = 2 ^ 32 - 1 := by decide
          omega
        refine ⟨by simp [leaseOf, restored, htime, hforever, hexp, hne, hentry], ?_⟩
        simp only [leaseOf, htime, hentry, if_neg hne]
        rw [BitVec.lt_def, BitVec.toNat_add, Nat.mod_eq_of_lt (by omega)]
        omega
  have hstart : (start cfg now' [] (writeLeases cfg now t) : Table n) = addAll now' n (slots.map entry) fun _ => zeroed := by
    have hload : (loadLeases now' [] fun _ : Fin n => zeroed) = fun _ => zeroed := by
      unfold loadLeases
      cases n <;> rfl
    unfold start readLeases writeLeases
    rw [hload, List.filter_map, List.map_map, ← hslots]
    congr 1
    have hall : slots.filter ((fun l : DhcpOfferedAddr => decide (l.yiaddr ≥ cfg.start) && decide (l.yiaddr ≤ cfg.last)) ∘
        fun i => { t i with expires := ntohl cfg.endian (writtenTime cfg now (t i)) }) = slots := by
      refine List.filter_eq_self.mpr fun i hi => ?_
      have hr := hrange i ((hmem i).mp hi)
      simp [hr]
    rw [hall]
    refine List.map_congr_left fun i _ => ?_
    simp only [Function.comp_apply, hremaining, if_true, ntohl_ntohl, hentry]
  have hholds : Holds now' (slots.map entry) (addAll now' n (slots.map entry) fun _ : Fin n => zeroed) := by
    have hnil : Holds now' [] fun _ : Fin n => zeroed := ⟨fun _ => .inl rfl, by simp⟩
    show Holds now' ([] ++ slots.map entry) _
    refine addAll_holds hnow hnil unique_zeroed ?_ ?_ ?_ ?_
    · rw [List.nil_append, List.pairwise_map]
      refine ((List.nodup_finRange n).filter _).imp_of_mem fun {i j} hi hj hij => ⟨fun heq => ?_, fun hne heq => ?_⟩
      · exact hij (hu.slot ((hmem i).mp hi) heq)
      · exact hij (hu.client hne heq)
    · intro x hx
      obtain ⟨i, hi, rfl⟩ := List.mem_map.mp hx
      exact ⟨(hmem i).mp hi, (hlease i ((hmem i).mp hi)).2⟩
    · simpa [hslots] using (List.length_filter_le _ (List.finRange n))
    · simpa [hslots] using (List.length_filter_le _ (List.finRange n))
  rw [hstart]
  refine ⟨fun i hi => ?_, fun j => ?_⟩
  · obtain ⟨j, hj⟩ := hholds.all (entry i) (List.mem_map_of_mem ((hmem i).mpr hi))
    exact ⟨j, by rw [hj, (hlease i hi).1]⟩
  · rcases hholds.only j with hz | ⟨x, hx, hj⟩
    · exact .inl hz
    · obtain ⟨i, hi, rfl⟩ := List.mem_map.mp hx
      have hi' := (hmem i).mp hi
      exact .inr ⟨i, hi', by rw [hj, (hlease i hi').1]⟩

/-- **A restart keeps the leases.** Whatever the server has been sent, if it writes its file at `now` and another starts
from it at `now'`, that one has a record for every record that named an address, with the same client and the same time
left, and no other. -/
theorem restart_of_run {statics : List (Chaddr × Word)} {file : List DhcpOfferedAddr} {es : List Label} {time : Word}
    (h : Runs cfg time statics file es t) (hremaining : cfg.remaining = true) (now now' : Word) (hnow : now' ≠ 0)
    (hrange : ∀ i, (t i).yiaddr ≠ 0 → cfg.start ≤ (t i).yiaddr ∧ (t i).yiaddr ≤ cfg.last)
    (hclock : ∀ i, (t i).yiaddr ≠ 0 → FitsClock now now' (t i)) :
    (∀ i, (t i).yiaddr ≠ 0 → ∃ j, (start cfg now' [] (writeLeases cfg now t) : Table n) j = restored now now' (t i)) ∧
      ∀ j, (start cfg now' [] (writeLeases cfg now t) : Table n) j = zeroed ∨ ∃ i, (t i).yiaddr ≠ 0 ∧
        (start cfg now' [] (writeLeases cfg now t) : Table n) j = restored now now' (t i) :=
  restart_keeps (unique_of_run h) cfg hremaining now now' hnow hrange hclock

theorem restart_of_run_lease : ∃ t : Table 2, t 0 = { laptopLease with expires := 3601 } ∧
    ∃ j, (start lanConfig 5 [] (writeLeases lanConfig 200 t) : Table 2) j = { laptopLease with expires := 3406 } := by
  refine ⟨start lanConfig 1 [] [laptopLease], by decide +kernel, ?_⟩
  have hrun : Runs lanConfig 1 [] [laptopLease] [] (start lanConfig 1 [] [laptopLease] : Table 2) := .nil
  obtain ⟨j, hj⟩ := (restart_of_run hrun rfl 200 5 (by decide) (by decide +kernel)
    (by unfold FitsClock; decide +kernel)).1 0 (by decide +kernel)
  exact ⟨j, hj.trans (by decide +kernel)⟩

end Udhcpd
end Router
