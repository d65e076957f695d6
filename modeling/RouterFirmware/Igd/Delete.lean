/-
# DeletePortMapping

`upnp/igd/ipt.c`: the action goes through the port mappings by their numbers and deletes those that match. A mapping
that is deleted leaves its number to the next one, which the loop then passes over.

`deletePortMapping_iff` says when no mapping that matches is left after a success: there is none right behind another
one (`Spread`). The records that cannot be read count as well, since the loop ends at one, unless it passes over it.

The arguments are there, as `invoke` sees to it. The rules in the kernel are left out, as for the manager. The call
of `nvram_unset` for the mapping with number `i` succeeds if `ok i`.
-/
import RouterFirmware.Igd.Ipt

namespace Router
namespace Igd

open CMem Nvparse
open Nvram (VarMap)

/-! ### The action -/

/-- The arguments of the action. -/
structure DeleteRequest where
  newRemoteHost : CStr
  newExternalPort : CStr
  newProtocol : CStr

def soapNoSuchEntryInArray : ℕ := 714

section Action

variable (L : Libc) (u : Undef)

/-- The loop that deletes what matches, from number `i` on, with the status so far. -/
def deleteLoop (e : NetconfNat) (ok : ℤ → Bool) : ℕ → ℤ → ℕ → Mapmgr → Option (ℕ × Mapmgr)
  | 0, _, _, _ => none
  | fuel + 1, i, status, s =>
    match mapmgrGetPortMap L u s i with
    | none => some (status, s)
    | some mapping =>
      if sameMatchInfo e mapping then deleteLoop e ok fuel (i + 1) 0 (mapmgrDeletePortMap L u i (ok i) s).2
      else deleteLoop e ok fuel (i + 1) status s

/-- What is looked for. -/
def deleteKey (s : Mapmgr) (req : DeleteRequest) : Option NetconfNat :=
  parseDnat L s.nv req.newProtocol req.newRemoteHost req.newExternalPort none none none none

/-- `DeletePortMapping`, with `fuel` turns for its loop. -/
def deletePortMapping (fuel : ℕ) (req : DeleteRequest) (ok : ℤ → Bool) (s : Mapmgr) : Option (Answer × Mapmgr) :=
  if nvramInvmatch s.nv (.lit "wan_nat_x") "1" then some (.nothing, s)
  else
    match deleteKey L s req with
    | none => some (.error soapInvalidArgs, s)
    | some e =>
      (deleteLoop L u e ok fuel 0 soapNoSuchEntryInArray s).map fun r =>
        (if r.1 = 0 then .success else .error r.1, r.2)

/-! ### What the action is for -/

/-- After a success no mapping is left that matches, and all others are there. After anything else all are. -/
def DeletesMatching (s : Mapmgr) (req : DeleteRequest) (r : Answer × Mapmgr) : Prop :=
  if r.1 = .success then
    ∀ e ∈ deleteKey L s req, ∀ i < nfdbits,
      (∀ m, mapping L u r.2 i = some m → sameMatchInfo e m = false) ∧
        ∀ m, mapping L u s i = some m → sameMatchInfo e m = false → mapping L u r.2 i = some m
  else mapping L u r.2 = mapping L u s

/-- Whether the record in a slot matches, if it is read. -/
def hit (s : Mapmgr) (e : NetconfNat) (i : ℕ) : Option Bool := (getForwardPort L u s.nv i).map (sameMatchInfo e)

end Action

/-- The slots of the port mappings, in the order of their numbers. -/
def slots (s : Mapmgr) : List ℕ := (List.range nfdbits).filter (· ∈ s.ports.map)

/-- No match stands right behind another one, and where there is a match behind a record that cannot be read, this
stands right behind one. -/
def Spread (hits : List (Option Bool)) : Prop :=
  (¬[some true, some true] <:+: hits) ∧
    ∀ front back, hits = front ++ none :: back → some true ∈ back → front.getLast? = some (some true)

/-- A record that cannot be read stands in front of all matches. -/
def Blocked (hits : List (Option Bool)) : Prop :=
  ∃ front back, hits = front ++ none :: back ∧ some true ∉ front

/-! ### The slots that are given up -/

/-- The slots that the loop gives up, where it passes over the first if `skip`. -/
def swept (hit : ℕ → Option Bool) : Bool → List ℕ → List ℕ
  | _, [] => []
  | true, _ :: is => swept hit false is
  | false, i :: is =>
    match hit i with
    | none => []
    | some false => swept hit false is
    | some true => i :: swept hit true is

section Swept

variable {hit : ℕ → Option Bool} {l : List (Option Bool)} {x : Option Bool}

theorem mem_of_mem_swept : ∀ {skip : Bool} {is : List ℕ} {i : ℕ}, i ∈ swept hit skip is → i ∈ is ∧ hit i = some true
  | _, [], _, h => absurd h List.not_mem_nil
  | true, j :: is, i, h => by
    obtain ⟨hmem, hhit⟩ := mem_of_mem_swept (show i ∈ swept hit false is from h)
    exact ⟨List.mem_cons_of_mem j hmem, hhit⟩
  | false, j :: is, i, h => by
    rw [swept] at h
    cases hj : hit j with
    | none =>
      rw [hj] at h
      exact absurd h List.not_mem_nil
    | some b =>
      rw [hj] at h
      cases b with
      | false =>
        obtain ⟨hmem, hhit⟩ := mem_of_mem_swept h
        exact ⟨List.mem_cons_of_mem j hmem, hhit⟩
      | true =>
        rcases List.mem_cons.mp h with rfl | h
        · exact ⟨List.mem_cons_self, hj⟩
        · obtain ⟨hmem, hhit⟩ := mem_of_mem_swept h
          exact ⟨List.mem_cons_of_mem j hmem, hhit⟩

theorem getLast?_cons_iff (hx : x ≠ some true) :
    (x :: l).getLast? = some (some true) ↔ l.getLast? = some (some true) := by
  rw [List.getLast?_cons]
  cases l.getLast? with
  | none => simpa using hx
  | some y => simp

/-- What `Spread` asks of the records behind the first. -/
theorem spread_cons : Spread (x :: l) ↔ (x = some true → l.head? ≠ some (some true)) ∧ (x = none → some true ∉ l) ∧
    (¬[some true, some true] <:+: l) ∧
      ∀ front back, l = front ++ none :: back → some true ∈ back → (x :: front).getLast? = some (some true) := by
  have hpair : ([some true, some true] <:+: x :: l) ↔
      x = some true ∧ l.head? = some (some true) ∨ [some true, some true] <:+: l := by
    rw [List.infix_cons_iff, List.cons_prefix_cons]
    apply or_congr_left
    apply and_congr eq_comm
    cases l with
    | nil => simp
    | cons y l => simp [List.cons_prefix_cons, eq_comm]
  rw [Spread, hpair, not_or, not_and]
  constructor
  · rintro ⟨⟨hhead, hnext⟩, hstop⟩
    refine ⟨hhead, ?_, hnext, ?_⟩
    · rintro rfl hmem
      exact absurd (hstop [] l rfl hmem) (by simp)
    · rintro front back rfl hmem
      exact hstop (x :: front) back rfl hmem
  · rintro ⟨hhead, hnone, hnext, hstop⟩
    refine ⟨⟨hhead, hnext⟩, ?_⟩
    intro front back heq hmem
    cases front with
    | nil =>
      obtain ⟨rfl, rfl⟩ := List.cons.inj heq
      exact absurd hmem (hnone rfl)
    | cons y front =>
      obtain ⟨rfl, rfl⟩ := List.cons.inj heq
      exact hstop front back rfl hmem

theorem swept_congr {hit' : ℕ → Option Bool} : ∀ {skip : Bool} {is : List ℕ}, (∀ i ∈ is, hit' i = hit i) →
    swept hit' skip is = swept hit skip is
  | _, [], _ => by simp [swept]
  | true, i :: is, h => by
    have hrest : ∀ j ∈ is, hit' j = hit j := fun j hj => h j (List.mem_cons_of_mem i hj)
    rw [swept, swept, swept_congr hrest]
  | false, i :: is, h => by
    have hrest : ∀ j ∈ is, hit' j = hit j := fun j hj => h j (List.mem_cons_of_mem i hj)
    rw [swept, swept, h i List.mem_cons_self, swept_congr hrest, swept_congr hrest]

theorem spread_none : Spread (none :: l) ↔ some true ∉ l := by
  rw [spread_cons]
  refine ⟨fun h => h.2.1 rfl, fun h => ⟨nofun, fun _ => h, ?_, ?_⟩⟩
  · intro hnext
    exact h (hnext.subset List.mem_cons_self)
  · rintro front back rfl hmem
    exact absurd (List.mem_append_right _ (List.mem_cons_of_mem _ hmem)) h

theorem spread_false : Spread (some false :: l) ↔ Spread l := by
  rw [spread_cons]
  simp only [getLast?_cons_iff (show some false ≠ some true by decide)]
  exact ⟨fun h => h.2.2, fun h => ⟨nofun, nofun, h⟩⟩

theorem spread_true : Spread (some true :: x :: l) ↔ x ≠ some true ∧ Spread l := by
  rw [spread_cons]
  constructor
  · rintro ⟨hhead, -, hnext, hstop⟩
    have hx : x ≠ some true := fun he => hhead rfl (congrArg some he)
    refine ⟨hx, fun h => hnext (h.trans (List.suffix_cons x l).isInfix), ?_⟩
    intro front back heq hmem
    have hlast := hstop (x :: front) back (congrArg (x :: ·) heq) hmem
    rwa [List.getLast?_cons_cons, getLast?_cons_iff hx] at hlast
  · rintro ⟨hx, hnext, hstop⟩
    refine ⟨fun _ h => hx (Option.some.inj h), nofun, ?_, ?_⟩
    · intro h
      rcases List.infix_cons_iff.mp h with hp | h
      · exact hx (List.cons_prefix_cons.mp hp).1.symm
      · exact hnext h
    · intro front back heq hmem
      cases front with
      | nil => rfl
      | cons y front =>
        obtain ⟨rfl, rfl⟩ := List.cons.inj heq
        rw [List.getLast?_cons_cons, getLast?_cons_iff hx]
        exact hstop front back rfl hmem

/-- All matches are given up. -/
theorem swept_iff : ∀ {is : List ℕ}, is.Nodup →
    ((∀ i ∈ is, hit i = some true → i ∈ swept hit false is) ↔ Spread (is.map hit)) ∧
      ((∀ i ∈ is, hit i = some true → i ∈ swept hit true is) ↔ Spread (some true :: is.map hit))
  | [], _ => by
    refine ⟨iff_of_true nofun ⟨by simp, by simp⟩, iff_of_true nofun ?_⟩
    rw [List.map_nil, spread_cons]
    simp
  | j :: is, hnodup => by
    obtain ⟨hj, hnodup⟩ := List.nodup_cons.mp hnodup
    obtain ⟨hfalse, htrue⟩ := swept_iff hnodup
    constructor
    · rw [List.map_cons]
      cases hhit : hit j with
      | none =>
        rw [spread_none]
        simp [swept, hhit]
      | some b =>
        cases b with
        | false =>
          rw [spread_false, ← hfalse]
          simp [swept, hhit]
        | true =>
          rw [← htrue]
          rw [swept, hhit, List.forall_mem_cons]
          constructor
          · rintro ⟨-, h⟩ i hi hm
            refine (List.mem_cons.mp (h i hi hm)).resolve_left ?_
            rintro rfl
            exact hj hi
          · exact fun h => ⟨fun _ => List.mem_cons_self, fun i hi hm => List.mem_cons_of_mem j (h i hi hm)⟩
    · rw [List.map_cons, spread_true, ← hfalse, List.forall_mem_cons, swept]
      apply and_congr_left'
      refine ⟨fun h hhit => hj (mem_of_mem_swept (h hhit)).1, fun h hhit => absurd hhit h⟩

theorem swept_eq_nil_iff : ∀ {is : List ℕ},
    swept hit false is = [] ↔ Blocked (is.map hit) ∨ some true ∉ is.map hit
  | [] => by simp [swept]
  | j :: is => by
    have hcons : Blocked (hit j :: is.map hit) ↔ hit j = none ∨ hit j ≠ some true ∧ Blocked (is.map hit) := by
      constructor
      · rintro ⟨front, back, heq, hfront⟩
        cases front with
        | nil => exact .inl (List.cons.inj heq).1
        | cons y front =>
          obtain ⟨rfl, htail⟩ := List.cons.inj heq
          rw [List.mem_cons, not_or] at hfront
          exact .inr ⟨Ne.symm hfront.1, front, back, htail, hfront.2⟩
      · rintro (h | ⟨h, front, back, heq, hfront⟩)
        · exact ⟨[], _, congrArg (· :: _) h, List.not_mem_nil⟩
        · refine ⟨hit j :: front, back, congrArg (hit j :: ·) heq, ?_⟩
          rw [List.mem_cons, not_or]
          exact ⟨Ne.symm h, hfront⟩
    rw [List.map_cons, hcons, List.mem_cons, not_or, swept]
    cases hhit : hit j with
    | none => simp
    | some b =>
      cases b with
      | false => simpa using swept_eq_nil_iff
      | true => simp

end Swept

/-! ### The loop -/

section Loop

variable {L : Libc} {u : Undef} {s s' : Mapmgr} {e : NetconfNat} {ok : ℤ → Bool}

/-- The slots in `gone` have been given up, and NVRAM has changed in them only. -/
structure Gone (L : Libc) (u : Undef) (s : Mapmgr) (gone : List ℕ) (s' : Mapmgr) : Prop where
  map : ∀ i, i ∈ s'.ports.map ↔ i ∈ s.ports.map ∧ i ∉ gone
  kept : ∀ i ∉ gone, getForwardPort L u s'.nv i = getForwardPort L u s.nv i

theorem slot_iff {k i : ℕ} : slot s .ports k = some i ↔ (slots s)[k]? = some i := by
  rw [slot, Slots.nth_eq_some_iff, Int.toNat_natCast]
  exact and_iff_right (Int.natCast_nonneg k)

theorem nodup_slots : (slots s).Nodup := List.nodup_range.filter _

/-- The mapping with the number `k` is given up. -/
theorem gone_delete {m : NetconfNat} {k i : ℕ} {o : Bool} (hslot : (slots s)[k]? = some i)
    (hget : getForwardPort L u s.nv i = some m) : Gone L u s [i] (mapmgrDeletePortMap L u k o s).2 := by
  have hmap : mapmgrGetPortMap L u s k = some m := by
    rw [mapmgrGetPortMap, mapmgrGetMap, slot_iff.mpr hslot]
    exact hget
  have heq : (mapmgrDeletePortMap L u k o s).2 =
      { s with nv := (delForwardPort o s.nv i).2 }.modify (.clr i) .ports := by
    rw [mapmgrDeletePortMap, hmap]
    simp only [mapmgrDeleteMap, slot_iff.mpr hslot]
  rw [heq]
  constructor
  · intro j
    show j ∈ s.ports.map.erase i ↔ _
    rw [Finset.mem_erase, List.mem_singleton]
    tauto
  · intro j hj
    rw [List.mem_singleton] at hj
    rw [nv_modify, delForwardPort]
    split_ifs
    · exact getForwardPort_erase_ne hj
    · rfl

theorem filter_notMem_singleton {front back : List ℕ} {i : ℕ} (h : (front ++ i :: back).Nodup) :
    (front ++ i :: back).filter (· ∉ [i]) = front ++ back := by
  rw [List.nodup_append, List.nodup_cons] at h
  obtain ⟨-, ⟨hback, -⟩, hfront⟩ := h
  rw [List.filter_append, List.filter_cons_of_neg (by simp), List.filter_eq_self.mpr, List.filter_eq_self.mpr]
  · intro j hj
    rw [decide_eq_true_eq, List.mem_singleton]
    rintro rfl
    exact hback hj
  · intro j hj
    rw [decide_eq_true_eq, List.mem_singleton]
    exact hfront j hj i List.mem_cons_self

/-- The list closes behind it. -/
theorem Gone.slots {gone : List ℕ} (h : Gone L u s gone s') : slots s' = (slots s).filter (· ∉ gone) := by
  simp only [Igd.slots, List.filter_filter]
  apply List.filter_congr
  intro i _
  rw [← Bool.decide_and, decide_eq_decide, h.map i]
  tauto

theorem Gone.trans {s'' : Mapmgr} {gone gone' : List ℕ} (h : Gone L u s gone s') (h' : Gone L u s' gone' s'') :
    Gone L u s (gone ++ gone') s'' := by
  constructor
  · intro i
    rw [h'.map, h.map, List.mem_append]
    tauto
  · intro i hi
    rw [List.mem_append, not_or] at hi
    rw [h'.kept i hi.2, h.kept i hi.1]

theorem mapmgrGetPortMap_eq {front back : List ℕ} {i : ℕ} (h : slots s = front ++ i :: back) :
    mapmgrGetPortMap L u s front.length = getForwardPort L u s.nv i := by
  have hslot : (slots s)[front.length]? = some i := by
    rw [h, List.getElem?_append_right le_rfl, Nat.sub_self]
    rfl
  rw [mapmgrGetPortMap, mapmgrGetMap, slot_iff.mpr hslot]
  rfl

theorem mapmgrGetPortMap_end {k : ℕ} (h : (slots s).length ≤ k) : mapmgrGetPortMap L u s k = none := by
  have hslot : slot s .ports k = none := by
    by_contra hsome
    obtain ⟨i, hi⟩ := Option.ne_none_iff_exists'.mp hsome
    rw [slot_iff, List.getElem?_eq_none h] at hi
    cases hi
  rw [mapmgrGetPortMap, mapmgrGetMap, hslot]
  rfl

/-- The loop gives up what is swept of the slots behind its number. -/
theorem deleteLoop_spec : ∀ {back front : List ℕ} {fuel status : ℕ} {s : Mapmgr}, slots s = front ++ back →
    back.length < fuel →
    ∃ s', deleteLoop L u e ok fuel front.length status s =
        some (if swept (hit L u s e) false back = [] then status else 0, s') ∧
      Gone L u s (swept (hit L u s e) false back) s'
  | back, front, fuel, status, s, hslots, hfuel => by
    obtain ⟨fuel, rfl⟩ := Nat.exists_eq_add_one_of_ne_zero (Nat.ne_zero_of_lt hfuel)
    have hstay : ∀ s : Mapmgr, Gone L u s [] s := fun s => ⟨fun i => by simp, fun _ _ => rfl⟩
    cases back with
    | nil =>
      rw [List.append_nil] at hslots
      rw [deleteLoop, mapmgrGetPortMap_end (by rw [hslots])]
      exact ⟨s, rfl, hstay s⟩
    | cons i back =>
      rw [deleteLoop, mapmgrGetPortMap_eq hslots]
      cases hget : getForwardPort L u s.nv i with
      | none =>
        have hhit : hit L u s e i = none := by rw [hit, hget, Option.map_none]
        rw [swept, hhit]
        exact ⟨s, rfl, hstay s⟩
      | some m =>
        have hhit : hit L u s e i = some (sameMatchInfo e m) := by rw [hit, hget, Option.map_some]
        have hnext : (front.length : ℤ) + 1 = (front.length + 1 : ℕ) := by push_cast; rfl
        dsimp only
        cases hsame : sameMatchInfo e m with
        | false =>
          rw [hsame] at hhit
          rw [List.append_cons] at hslots
          obtain ⟨s', hloop, hgone⟩ :=
            @deleteLoop_spec _ _ fuel status _ hslots (Nat.lt_of_succ_lt_succ hfuel)
          rw [List.length_append, List.length_singleton] at hloop
          rw [swept, hhit, if_neg Bool.false_ne_true, hnext]
          exact ⟨s', hloop, hgone⟩
        | true =>
          rw [hsame] at hhit
          rw [swept, hhit, if_pos rfl, hnext]
          have hslot : (slots s)[front.length]? = some i := by
            rw [hslots, List.getElem?_append_right le_rfl, Nat.sub_self]
            rfl
          have hone := gone_delete (o := ok front.length) hslot hget
          generalize (mapmgrDeletePortMap L u front.length (ok front.length) s).2 = s₁ at hone ⊢
          have hnodup := nodup_slots (s := s)
          rw [hslots] at hnodup
          have hclosed : slots s₁ = front ++ back := by
            rw [hone.slots, hslots]
            exact filter_notMem_singleton hnodup
          have hkept : ∀ j ∈ back, hit L u s₁ e j = hit L u s e j := by
            intro j hj
            have hne : j ∉ [i] := by
              rw [List.mem_singleton]
              rintro rfl
              exact (List.nodup_cons.mp (List.nodup_append.mp hnodup).2.1).1 hj
            rw [hit, hit, hone.kept j hne]
          cases back with
          | nil =>
            obtain ⟨fuel, rfl⟩ := Nat.exists_eq_add_one_of_ne_zero (by simp at hfuel; omega : fuel ≠ 0)
            rw [deleteLoop, mapmgrGetPortMap_end (by rw [hclosed]; simp)]
            exact ⟨s₁, rfl, hone⟩
          | cons j back =>
            rw [List.append_cons] at hclosed
            obtain ⟨s', hloop, hgone⟩ := @deleteLoop_spec _ _ fuel 0 _ hclosed (by simp at hfuel; omega)
            rw [List.length_append, List.length_singleton, ite_self] at hloop
            rw [swept_congr fun j' hj' => hkept j' (List.mem_cons_of_mem j hj')] at hgone
            rw [swept]
            exact ⟨s', hloop, hone.trans hgone⟩
termination_by back => back.length

/-! ### What is left -/

theorem spread_of_notMem {hits : List (Option Bool)} (h : some true ∉ hits) : Spread hits := by
  refine ⟨fun hnext => h (hnext.subset List.mem_cons_self), ?_⟩
  rintro front back rfl hmem
  exact absurd (List.mem_append_right _ (List.mem_cons_of_mem _ hmem)) h

theorem mem_slots {i : ℕ} : i ∈ slots s ↔ i < nfdbits ∧ i ∈ s.ports.map := by
  rw [slots, List.mem_filter, List.mem_range, decide_eq_true_eq]

theorem Gone.mapping_iff {gone : List ℕ} {i : ℕ} {m : NetconfNat} (h : Gone L u s gone s') :
    mapping L u s' i = some m ↔ mapping L u s i = some m ∧ i ∉ gone := by
  rw [mapping_eq_some, mapping_eq_some, h.map]
  constructor
  · rintro ⟨⟨hmem, hnot⟩, hget⟩
    exact ⟨⟨hmem, by rw [← h.kept i hnot, hget]⟩, hnot⟩
  · rintro ⟨⟨hmem, hget⟩, hnot⟩
    exact ⟨⟨hmem, hnot⟩, by rw [h.kept i hnot, hget]⟩

/-- A mapping that does not match is not given up. -/
theorem notMem_swept {i : ℕ} {m : NetconfNat} {is : List ℕ} (hm : mapping L u s i = some m)
    (hsame : sameMatchInfo e m = false) : i ∉ swept (hit L u s e) false is := by
  intro hmem
  have hhit := (mem_of_mem_swept hmem).2
  rw [hit, (mapping_eq_some.mp hm).2, Option.map_some, hsame] at hhit
  cases hhit

/-- No match is left when all of them have been given up. -/
theorem left_iff {gone : List ℕ} (h : Gone L u s gone s') :
    (∀ i < nfdbits, ∀ m, mapping L u s' i = some m → sameMatchInfo e m = false) ↔
      ∀ i ∈ slots s, hit L u s e i = some true → i ∈ gone := by
  constructor
  · intro hleft i hi hhit
    by_contra hnot
    obtain ⟨hlt, hmem⟩ := mem_slots.mp hi
    obtain ⟨m, hget, hsame⟩ := Option.map_eq_some_iff.mp hhit
    have hfalse := hleft i hlt m (h.mapping_iff.mpr ⟨mapping_eq_some.mpr ⟨hmem, hget⟩, hnot⟩)
    rw [hsame] at hfalse
    cases hfalse
  · intro hall i hlt m hm
    obtain ⟨hold, hnot⟩ := h.mapping_iff.mp hm
    obtain ⟨hmem, hget⟩ := mapping_eq_some.mp hold
    by_contra hsame
    refine hnot (hall i (mem_slots.mpr ⟨hlt, hmem⟩) ?_)
    rw [hit, hget, Option.map_some, Bool.eq_true_of_not_eq_false hsame]

end Loop

/-- When DeletePortMapping deletes what matches and nothing else, for every list of mappings. It always returns. -/
theorem deletePortMapping_iff (L : Libc) (u : Undef) (s : Mapmgr) (req : DeleteRequest) (ok : ℤ → Bool) (more : ℕ) :
    ∃ r, deletePortMapping L u (nfdbits + 1 + more) req ok s = some r ∧ (DeletesMatching L u s req r ↔
      nvramInvmatch s.nv (.lit "wan_nat_x") "1" = true ∨ ∀ e ∈ deleteKey L s req,
        Blocked ((slots s).map (hit L u s e)) ∨ Spread ((slots s).map (hit L u s e))) := by
  have hsame : ∀ {a : Answer}, a ≠ .success → DeletesMatching L u s req (a, s) := by
    intro a ha
    rw [DeletesMatching, if_neg ha]
  by_cases hnat : nvramInvmatch s.nv (.lit "wan_nat_x") "1" = true
  · refine ⟨(.nothing, s), by rw [deletePortMapping, if_pos hnat], iff_of_true (hsame nofun) (.inl hnat)⟩
  · cases hkey : deleteKey L s req with
    | none =>
      refine ⟨(.error soapInvalidArgs, s), by rw [deletePortMapping, if_neg hnat, hkey], ?_⟩
      exact iff_of_true (hsame nofun) (.inr nofun)
    | some e =>
      have hlen : (slots s).length < nfdbits + 1 + more := by
        have hle := List.length_filter_le (fun i => decide (i ∈ s.ports.map)) (List.range nfdbits)
        rw [List.length_range] at hle
        rw [slots]
        omega
      obtain ⟨s', hloop, hgone⟩ :=
        @deleteLoop_spec L u e ok (slots s) [] _ soapNoSuchEntryInArray s (List.nil_append _).symm hlen
      rw [List.length_nil, Nat.cast_zero] at hloop
      rw [deletePortMapping, if_neg hnat, hkey]
      dsimp only
      rw [hloop, Option.map_some, or_iff_right hnat]
      refine ⟨_, rfl, ?_⟩
      simp only [Option.mem_some_iff, forall_eq']
      by_cases hnone : swept (hit L u s e) false (slots s) = []
      · rw [if_pos hnone, if_neg (by decide)]
        rw [hnone] at hgone
        refine iff_of_true ?_ ((swept_eq_nil_iff.mp hnone).imp_right spread_of_notMem)
        rw [DeletesMatching, if_neg nofun]
        funext i
        ext m
        rw [hgone.mapping_iff]
        exact and_iff_left List.not_mem_nil
      · rw [if_neg hnone, if_pos rfl]
        have hblocked : ¬Blocked ((slots s).map (hit L u s e)) := fun h => hnone (swept_eq_nil_iff.mpr (.inl h))
        rw [or_iff_right hblocked, ← (swept_iff nodup_slots).1, ← left_iff hgone, DeletesMatching, if_pos rfl, hkey]
        simp only [Option.mem_some_iff, forall_eq']
        constructor
        · exact fun h i hi => (h i hi).1
        · intro h i hi
          exact ⟨h i hi, fun m hm hsame => hgone.mapping_iff.mpr ⟨hm, notMem_swept hm hsame⟩⟩

/-- A web server and a mail server of one client. -/
def twoServers : Mapmgr where
  ports := ⟨{0, 1}, 2⟩
  ranges := ⟨∅, 0⟩
  nv := ((∅ : VarMap).insert (.lit "forward_port0") (.lit "80-80>192.168.1.2:80-80,tcp,on,web")).insert
    (.lit "forward_port1") (.lit "25-25>192.168.1.2:25-25,tcp,on,mail")

/-- All TCP ports. -/
def allTcp : DeleteRequest := ⟨.lit "", .lit "0", .lit "TCP"⟩

/-- Both match, and the second is left. -/
theorem delete_leaves_match : ∃ r, deletePortMapping dottedLibc .nothing 34 allTcp (fun _ => true) twoServers = some r ∧
    r.1 = .success ∧ ¬DeletesMatching dottedLibc .nothing twoServers allTcp r := by
  have hrun : (deletePortMapping dottedLibc .nothing 34 allTcp (fun _ => true) twoServers).any (fun r =>
      r.1 == .success && (deleteKey dottedLibc twoServers allTcp).any fun e =>
        (mapping dottedLibc .nothing r.2 1).any (sameMatchInfo e)) = true := by
    decide +kernel
  obtain ⟨r, hr, hleft⟩ := (Option.any_eq_true _ _).mp hrun
  rw [Bool.and_eq_true, beq_iff_eq] at hleft
  obtain ⟨hsuccess, hkey⟩ := hleft
  obtain ⟨e, he, hmapping⟩ := (Option.any_eq_true _ _).mp hkey
  obtain ⟨m, hm, hsame⟩ := (Option.any_eq_true _ _).mp hmapping
  refine ⟨r, hr, hsuccess, fun hdeletes => ?_⟩
  rw [DeletesMatching, if_pos hsuccess] at hdeletes
  have hnot := (hdeletes e he 1 (by decide)).1 m hm
  rw [hsame] at hnot
  cases hnot

end Igd
end Router
