/-
# Lists of interface names

`remove_from_list` and `add_to_list` of `router/shared/shutils.c`. A list is the text of its names with a space between
any two. Both look for the name with `strstr` and then at the byte behind it, but not at the byte in front: a name that
another one ends in is taken for that one. `removeFromList` goes on to the first place behind which a name ends
(`firstEnd`), `addToList` looks at the first place only. `nameList_iff` says when they do to the names what they are
documented to do.

The text behind a removed name is moved by a `strncpy` on overlapping texts, which is taken to copy from the front.
-/
import RouterFirmware.Lib.Search
import RouterFirmware.Lib.Words

namespace Router
namespace Ifname

open CText Words

/-! ### The source -/

/-- The return values: 0, `EINVAL` and `EMSGSIZE`. -/
inductive Code where
  | ok
  | einval
  | emsgsize
deriving DecidableEq

/-- The loop of `remove_from_list`, with `occurrence` at `i`. -/
def removeLoop (name list : Bytes) (i : ℕ) : Code × Bytes :=
  if i < list.length then
    match strstr name (list.drop i) with
    | none => (.einval, list)
    | some k =>
      let occurrence := i + k
      match list.drop (occurrence + name.length) with
      | [] => (.ok, list.take (if occurrence ≠ 0 then occurrence - 1 else occurrence))
      | c :: rest =>
        if c = 32 then (.ok, list.take occurrence ++ rest)
        else removeLoop name list (occurrence + 1)
  else (.ok, list)
termination_by list.length - i

/-- `remove_from_list(name, list, listsize)`: what it returns, and the list. -/
def removeFromList (name list : Bytes) (listsize : ℤ) : Code × Bytes :=
  if listsize ≤ 0 then (.einval, list) else removeLoop name list 0

/-- The test of `add_to_list`: `temp` and the byte behind the name. -/
def alreadyThere (name list : Bytes) : Bool :=
  match strstr name list with
  | none => false
  | some temp => (list.drop (temp + name.length)).head? = some 32 || list.drop (temp + name.length) = []

/-- `add_to_list(name, list, listsize)`. -/
def addToList (name list : Bytes) (listsize : ℤ) : Code × Bytes :=
  if listsize ≤ 0 then (.einval, list)
  else if alreadyThere name list then (.ok, list)
  else if listsize ≤ list.length + name.length + 1 then (.emsgsize, list)
  else (.ok, (if list ≠ [] then list ++ [32] else list) ++ name)

/-! ### Where a name ends -/

/-- The end of the text, or a space. -/
def Ends (s : Bytes) : Prop := s = [] ∨ s.head? = some 32

instance (s : Bytes) : Decidable (Ends s) := inferInstanceAs (Decidable (_ ∨ _))

/-- The first place where the name stands and ends. -/
def firstEnd (name : Bytes) : Bytes → Option ℕ
  | [] => none
  | c :: s => if name <+: c :: s ∧ Ends ((c :: s).drop name.length) then some 0 else (firstEnd name s).map (· + 1)

variable {name s : Bytes}

theorem firstEnd_cons {c : UInt8} (h : ¬(name <+: c :: s ∧ Ends ((c :: s).drop name.length))) :
    firstEnd name (c :: s) = (firstEnd name s).map (· + 1) := if_neg h

theorem firstEnd_eq_zero (hname : name ≠ []) (hp : name <+: s) (he : Ends (s.drop name.length)) :
    firstEnd name s = some 0 := by
  cases s with
  | nil => exact absurd (List.prefix_nil.mp hp) hname
  | cons c s => exact if_pos ⟨hp, he⟩

/-- The search skips no such place. -/
theorem firstEnd_of_strstr : ∀ {s : Bytes} {k : ℕ}, strstr name s = some k →
    firstEnd name s = (firstEnd name (s.drop k)).map (· + k)
  | [], k, _ => by simp [firstEnd]
  | c :: s, k, h => by
    by_cases hp : name <+: c :: s
    · rw [strstr_eq_zero hp] at h
      cases h
      simp
    · rw [strstr_cons hp] at h
      obtain ⟨k, hk, rfl⟩ := Option.map_eq_some_iff.mp h
      rw [firstEnd_cons fun h => hp h.1, firstEnd_of_strstr hk, List.drop_succ_cons, Option.map_map]
      rfl

theorem firstEnd_eq_none : ∀ {s : Bytes}, strstr name s = none → firstEnd name s = none
  | [], _ => rfl
  | c :: s, h => by
    by_cases hp : name <+: c :: s
    · rw [strstr_eq_zero hp] at h
      cases h
    · rw [strstr_cons hp, Option.map_eq_none_iff] at h
      rw [firstEnd_cons fun h => hp h.1, firstEnd_eq_none h]
      rfl

/-- Where a search from a place has found it. -/
theorem strstr_drop {i k : ℕ} (h : strstr name (s.drop i) = some k) : name <+: s.drop (i + k) := by
  rw [← List.drop_drop]
  exact strstr_spec h

/-- The list without the name at a place. -/
def removeAt (name list : Bytes) (occurrence : ℕ) : Bytes :=
  match list.drop (occurrence + name.length) with
  | [] => list.take (if occurrence ≠ 0 then occurrence - 1 else occurrence)
  | _ :: rest => list.take occurrence ++ rest

/-- What the loop does: the name is taken out where it ends first. -/
theorem removeLoop_eq {list : Bytes} (hname : name ≠ []) {i : ℕ} (hi : i < list.length) : removeLoop name list i =
    match firstEnd name (list.drop i) with
    | none => (.einval, list)
    | some k => (.ok, removeAt name list (i + k)) := by
  have hlen : 0 < name.length := List.length_pos_iff.mpr hname
  fun_induction removeLoop name list i with
  | case1 i hlt hfind => rw [firstEnd_eq_none hfind]
  | case2 i hlt k hfind occurrence hdrop =>
    have hends : Ends ((list.drop occurrence).drop name.length) := .inl (by rw [List.drop_drop, hdrop])
    have hfirst : firstEnd name (list.drop occurrence) = some 0 := firstEnd_eq_zero hname (strstr_drop hfind) hends
    rw [firstEnd_of_strstr hfind, List.drop_drop, hfirst]
    simp only [Option.map_some, Nat.zero_add]
    rw [removeAt, hdrop]
  | case3 i hlt k hfind occurrence rest hdrop =>
    have hends : Ends ((list.drop occurrence).drop name.length) := .inr (by rw [List.drop_drop, hdrop, List.head?_cons])
    have hfirst : firstEnd name (list.drop occurrence) = some 0 := firstEnd_eq_zero hname (strstr_drop hfind) hends
    rw [firstEnd_of_strstr hfind, List.drop_drop, hfirst]
    simp only [Option.map_some, Nat.zero_add]
    rw [removeAt, hdrop]
  | case4 i hlt k hfind occurrence c rest hdrop hc ih =>
    have hlt' : occurrence + name.length < list.length := by
      apply Nat.lt_of_not_le
      intro hle
      rw [List.drop_eq_nil_of_le hle] at hdrop
      cases hdrop
    have hnot : ¬Ends ((list.drop occurrence).drop name.length) := by
      rw [List.drop_drop, hdrop]
      simp [Ends, hc]
    have hnext : firstEnd name (list.drop occurrence) = (firstEnd name (list.drop (occurrence + 1))).map (· + 1) := by
      rw [List.drop_eq_getElem_cons (show occurrence < list.length by omega)] at hnot ⊢
      exact firstEnd_cons fun h => hnot h.2
    rw [ih (by omega), firstEnd_of_strstr hfind, List.drop_drop, hnext]
    cases firstEnd name (list.drop (occurrence + 1)) with
    | none => rfl
    | some j =>
      simp only [Option.map_some]
      rw [show i + (j + 1 + k) = occurrence + 1 + j by omega]
  | case5 i hge => exact absurd hi hge

theorem removeAt_append {a rest : Bytes} : removeAt name (a ++ (name ++ rest)) a.length =
    match rest with
    | [] => a.dropLast
    | _ :: rest => a ++ rest := by
  have hdrop : (a ++ (name ++ rest)).drop (a.length + name.length) = rest := by
    rw [← List.append_assoc, ← List.length_append, List.drop_left]
  rw [removeAt, hdrop]
  cases rest with
  | nil =>
    by_cases ha : a.length = 0
    · rw [List.length_eq_zero_iff] at ha
      subst ha
      rfl
    · simp only [ha, ne_eq, not_false_eq_true, if_true]
      rw [List.take_append_of_le_length (Nat.sub_le _ _), List.dropLast_eq_take]
  | cons c rest => exact congrArg (· ++ rest) List.take_left

/-! ### In a list of words -/

/-- A text without a space does not go beyond an end. -/
theorem prefix_of_append {l rest : Bytes} (hname : 32 ∉ name) (he : Ends rest) (hp : name <+: l ++ rest) :
    name <+: l := by
  rcases List.prefix_or_prefix_of_prefix hp (List.prefix_append l rest) with h | ⟨x, rfl⟩
  · exact h
  · obtain ⟨t, ht⟩ := hp
    rw [List.append_assoc, List.append_cancel_left_eq] at ht
    cases x with
    | nil => rw [List.append_nil]
    | cons c x =>
      rcases he with rfl | hhead
      · cases ht
      · rw [← ht, List.cons_append, List.head?_cons, Option.some.injEq] at hhead
        rw [hhead] at hname
        exact absurd (List.mem_append_right l List.mem_cons_self) hname

/-- In front of an end a word without a space stands alone when it is the whole. -/
theorem stands_iff {l rest : Bytes} (hname : 32 ∉ name) (hl : 32 ∉ l) (he : Ends rest) :
    (name <+: l ++ rest ∧ Ends ((l ++ rest).drop name.length)) ↔ name = l := by
  constructor
  · rintro ⟨hp, hends⟩
    obtain ⟨y, rfl⟩ := prefix_of_append hname he hp
    cases y with
    | nil => rw [List.append_nil]
    | cons c y =>
      rw [List.append_assoc, List.drop_left] at hends
      rcases hends with hnil | hhead
      · cases hnil
      · rw [List.cons_append, List.head?_cons, Option.some.injEq] at hhead
        rw [hhead] at hl
        exact absurd (List.mem_append_right name List.mem_cons_self) hl
  · rintro rfl
    rw [List.drop_left]
    exact ⟨List.prefix_append name rest, he⟩

/-- A name is found at the end of a word. -/
theorem firstEnd_append {rest : Bytes} (hname : IsWord 32 name) (he : Ends rest) : ∀ {w : Bytes}, 32 ∉ w →
    firstEnd name (w ++ rest) =
      if name <:+ w then some (w.length - name.length) else (firstEnd name rest).map (· + w.length)
  | [], _ => by simp [hname.ne_nil]
  | c :: w, hw => by
    by_cases heq : name = c :: w
    · obtain ⟨hp, hends⟩ := (stands_iff hname.sep_notMem hw he).mpr heq
      rw [firstEnd_eq_zero hname.ne_nil hp hends, heq, if_pos (List.suffix_refl _), Nat.sub_self]
    · have hnot : ¬(name <+: c :: (w ++ rest) ∧ Ends ((c :: (w ++ rest)).drop name.length)) :=
        mt (stands_iff hname.sep_notMem hw he).mp heq
      rw [List.cons_append, firstEnd_cons hnot, firstEnd_append hname he (List.not_mem_of_not_mem_cons hw)]
      by_cases hsuf : name <:+ w
      · rw [if_pos hsuf, if_pos (List.suffix_cons_iff.mpr (.inr hsuf)), Option.map_some, List.length_cons,
          Nat.sub_add_comm hsuf.length_le]
      · rw [if_neg hsuf, if_neg (by rw [List.suffix_cons_iff]; exact not_or.mpr ⟨heq, hsuf⟩), Option.map_map]
        rfl

/-- Words that do not end in the name are gone over. -/
theorem firstEnd_lead {rest : Bytes} (hname : IsWord 32 name) : ∀ {pre : List Bytes}, (∀ w ∈ pre, IsWord 32 w) →
    (∀ w ∈ pre, ¬name <:+ w) → firstEnd name (lead 32 pre ++ rest) = (firstEnd name rest).map (· + (lead 32 pre).length)
  | [], _, _ => by simp
  | w :: pre, hpre, hnot => by
    obtain ⟨hw, hpre⟩ := List.forall_mem_cons.mp hpre
    obtain ⟨hwnot, hnot⟩ := List.forall_mem_cons.mp hnot
    have hspace : firstEnd name (32 :: (lead 32 pre ++ rest)) = (firstEnd name (lead 32 pre ++ rest)).map (· + 1) := by
      apply firstEnd_cons
      intro h
      exact hname.ne_nil ((stands_iff (l := []) hname.sep_notMem List.not_mem_nil (.inr rfl)).mp h)
    rw [lead_cons, List.append_assoc, List.cons_append, firstEnd_append hname (.inr rfl) hw.sep_notMem, if_neg hwnot,
      hspace, firstEnd_lead hname hpre hnot, Option.map_map, Option.map_map]
    congr 1
    funext n
    simp
    omega

theorem ends_trail (post : List Bytes) : Ends (trail 32 post) := by
  cases post with
  | nil => exact .inl rfl
  | cons p post => exact .inr (by rw [trail_cons, List.head?_cons])

/-- The text of a list. -/
def listText (ws : List Bytes) : Bytes := [32].intercalate ws

variable {ws : List Bytes} {listsize : ℤ}

/-- No word ends in the name. -/
theorem removeFromList_none (hname : IsWord 32 name) (hws : ∀ w ∈ ws, IsWord 32 w) (hne : ws ≠ [])
    (hnot : ∀ w ∈ ws, ¬name <:+ w) (hsize : 0 < listsize) :
    removeFromList name (listText ws) listsize = (.einval, listText ws) := by
  have hnone : firstEnd name (listText ws) = none := by
    obtain rfl | ⟨pre, w, rfl⟩ := List.eq_nil_or_concat ws
    · rfl
    · rw [List.concat_eq_append] at hws hnot ⊢
      obtain ⟨hpre, hw⟩ := List.forall_mem_append.mp hws
      obtain ⟨hprenot, hwnot⟩ := List.forall_mem_append.mp hnot
      have hw := hw w (List.mem_singleton.mpr rfl)
      have hwnot := hwnot w (List.mem_singleton.mpr rfl)
      rw [listText, intercalate_append_cons, firstEnd_lead hname hpre hprenot,
        firstEnd_append hname (ends_trail []) hw.sep_notMem, if_neg hwnot]
      rfl
  have hlen : 0 < (listText ws).length := List.length_pos_iff.mpr (intercalate_ne_nil hne hws)
  rw [removeFromList, if_neg (by omega), removeLoop_eq hname.ne_nil hlen, List.drop_zero, hnone]

/-- The first word that ends in the name loses it, with the space behind. -/
theorem removeFromList_append {pre post : List Bytes} {x : Bytes} (hname : IsWord 32 name)
    (hws : ∀ w ∈ pre ++ (x ++ name) :: post, IsWord 32 w) (hnot : ∀ w ∈ pre, ¬name <:+ w) (hsize : 0 < listsize) :
    removeFromList name (listText (pre ++ (x ++ name) :: post)) listsize =
      (.ok, match post with
        | [] => (lead 32 pre ++ x).dropLast
        | p :: post => listText (pre ++ (x ++ p) :: post)) := by
  have hlen : 0 < (listText (pre ++ (x ++ name) :: post)).length :=
    List.length_pos_iff.mpr (intercalate_ne_nil (by simp) hws)
  obtain ⟨hpre, hpost⟩ := List.forall_mem_append.mp hws
  have hfirst : firstEnd name (listText (pre ++ (x ++ name) :: post)) = some (lead 32 pre ++ x).length := by
    have hword : IsWord 32 (x ++ name) := hpost (x ++ name) List.mem_cons_self
    rw [listText, intercalate_append_cons, firstEnd_lead hname hpre hnot,
      firstEnd_append hname (ends_trail post) hword.sep_notMem, if_pos (List.suffix_append x name)]
    simp [Nat.add_comm]
  have htext : listText (pre ++ (x ++ name) :: post) = lead 32 pre ++ x ++ (name ++ trail 32 post) := by
    simp [listText, intercalate_append_cons]
  rw [removeFromList, if_neg (by omega), removeLoop_eq hname.ne_nil hlen, List.drop_zero, hfirst]
  simp only [Nat.zero_add]
  rw [htext, removeAt_append]
  cases post with
  | nil => rfl
  | cons p post => simp [listText, intercalate_append_cons]

/-! ### Removing -/

/-- Of `remove_from_list`: when it returns 0 the words are the old ones without the name, and it fails exactly when the
name is not a word. -/
def RemoveRight (name : Bytes) (ws : List Bytes) (listsize : ℤ) : Prop :=
  ((removeFromList name (listText ws) listsize).1 = .ok →
    wordsOf 32 (removeFromList name (listText ws) listsize).2 = ws.filter (· ≠ name)) ∧
  ((removeFromList name (listText ws) listsize).1 ≠ .ok ↔ name ∉ ws)

/-- The first word that ends in the name is the name, or in front of it. -/
def RemoveFits (name : Bytes) : List Bytes → Prop
  | [] => True
  | w :: ws => if name <:+ w then w = name ∨ ws.head? = some name else RemoveFits name ws

theorem removeFits_of_not : ∀ {ws : List Bytes}, (∀ w ∈ ws, ¬name <:+ w) → RemoveFits name ws
  | [], _ => trivial
  | w :: ws, h => by
    obtain ⟨hw, hws⟩ := List.forall_mem_cons.mp h
    rw [RemoveFits, if_neg hw]
    exact removeFits_of_not hws

theorem removeFits_append {w : Bytes} {post : List Bytes} (hw : name <:+ w) : ∀ {pre : List Bytes},
    (∀ v ∈ pre, ¬name <:+ v) → (RemoveFits name (pre ++ w :: post) ↔ w = name ∨ post.head? = some name)
  | [], _ => by rw [List.nil_append, RemoveFits, if_pos hw]
  | v :: pre, h => by
    obtain ⟨hv, hpre⟩ := List.forall_mem_cons.mp h
    rw [List.cons_append, RemoveFits, if_neg hv]
    exact removeFits_append hw hpre

/-- The first word that ends in the name. -/
theorem exists_first (h : ¬∀ w ∈ ws, ¬name <:+ w) :
    ∃ pre w post, ws = pre ++ w :: post ∧ name <:+ w ∧ ∀ v ∈ pre, ¬name <:+ v := by
  have hsome : (ws.find? fun w => decide (name <:+ w)).isSome = true := by
    rw [List.find?_isSome]
    simpa using h
  obtain ⟨w, hw⟩ := Option.isSome_iff_exists.mp hsome
  obtain ⟨hsuf, pre, post, rfl, hpre⟩ := List.find?_eq_some_iff_append.mp hw
  exact ⟨pre, w, post, rfl, by simpa using hsuf, by simpa using hpre⟩

/-- The empty name is always found. -/
theorem removeLoop_nil (list : Bytes) (i : ℕ) : (removeLoop [] list i).1 = .ok := by
  fun_induction removeLoop [] list i with
  | case1 i hlt hfind =>
    rw [strstr_eq_zero List.nil_prefix] at hfind
    cases hfind
  | case2 | case3 | case5 => rfl
  | case4 i hlt k hfind occurrence c rest hdrop hc ih => exact ih

theorem removeRight_of_ok {r : Bytes} (h : removeFromList name (listText ws) listsize = (.ok, r)) :
    RemoveRight name ws listsize ↔ wordsOf 32 r = ws.filter (· ≠ name) ∧ name ∈ ws := by
  rw [RemoveRight, h]
  simp

theorem removeRight_of_einval {r : Bytes} (h : removeFromList name (listText ws) listsize = (.einval, r)) :
    RemoveRight name ws listsize ↔ name ∉ ws := by
  rw [RemoveRight, h]
  simp

theorem filter_of_notMem (h : name ∉ ws) : ws.filter (· ≠ name) = ws := by
  rw [List.filter_eq_self]
  intro v hv
  rw [decide_eq_true_eq]
  rintro rfl
  exact h hv

/-- Where a word ends in the name, the first such word decides. -/
theorem removeRight_append {pre post : List Bytes} {x : Bytes} (hname : IsWord 32 name)
    (hws : ∀ w ∈ pre ++ (x ++ name) :: post, IsWord 32 w) (hnodup : (pre ++ (x ++ name) :: post).Nodup)
    (hnot : ∀ w ∈ pre, ¬name <:+ w) (hsize : 0 < listsize) :
    RemoveRight name (pre ++ (x ++ name) :: post) listsize ↔ x ++ name = name ∨ post.head? = some name := by
  have hnotpre : name ∉ pre := fun h => hnot name h (List.suffix_refl name)
  obtain ⟨hpre, hrest⟩ := List.forall_mem_append.mp hws
  obtain ⟨hw, hpost⟩ := List.forall_mem_cons.mp hrest
  obtain ⟨hnotpost, hpostnodup⟩ := List.nodup_cons.mp hnodup.of_append_right
  rw [removeRight_of_ok (removeFromList_append hname hws hnot hsize), List.filter_append, filter_of_notMem hnotpre]
  by_cases hx : x = []
  · -- the word is the name
    subst hx
    rw [List.nil_append] at hnotpost
    have hfilter : (([] ++ name) :: post).filter (· ≠ name) = post := by
      rw [List.nil_append, List.filter_cons_of_neg (by simp), filter_of_notMem hnotpost]
    have hwords : ∀ w ∈ pre ++ post, IsWord 32 w := List.forall_mem_append.mpr ⟨hpre, hpost⟩
    rw [hfilter]
    cases post with
    | nil =>
      rw [List.append_nil] at hwords
      simp [dropLast_lead, wordsOf_intercalate hwords]
    | cons p post => simp [listText, wordsOf_intercalate hwords]
  · have hne : x ++ name ≠ name := by simpa using hx
    have hfilter : ((x ++ name) :: post).filter (· ≠ name) = (x ++ name) :: post.filter (· ≠ name) :=
      List.filter_cons_of_pos (by simpa using hx)
    rw [hfilter]
    cases post with
    | nil => simp [hnotpre, hne, hne.symm]
    | cons p post =>
      obtain ⟨hp, hps⟩ := List.forall_mem_cons.mp hpost
      have hxp : IsWord 32 (x ++ p) := by
        refine ⟨List.append_ne_nil_of_right_ne_nil x hp.ne_nil, ?_⟩
        rw [List.mem_append]
        exact not_or.mpr ⟨fun h => hw.sep_notMem (List.mem_append_left name h), hp.sep_notMem⟩
      have hwords : ∀ w ∈ pre ++ (x ++ p) :: post, IsWord 32 w :=
        List.forall_mem_append.mpr ⟨hpre, List.forall_mem_cons.mpr ⟨hxp, hps⟩⟩
      simp only [listText, wordsOf_intercalate hwords, List.append_cancel_left_eq, List.cons.injEq, hne, false_or,
        List.head?_cons, Option.some.injEq]
      constructor
      · rintro ⟨⟨hpn, -⟩, -⟩
        exact hpn
      · rintro rfl
        have hnotp : p ∉ post := (List.nodup_cons.mp hpostnodup).1
        refine ⟨⟨rfl, ?_⟩, by simp⟩
        rw [List.filter_cons_of_neg (by simp), filter_of_notMem hnotp]

/-- When `remove_from_list` is right: a list of size 0 or less is refused. -/
def RemoveCond (name : Bytes) (ws : List Bytes) (listsize : ℤ) : Prop :=
  if listsize ≤ 0 then name ∉ ws else ws ≠ [] ∧ name ≠ [] ∧ RemoveFits name ws

instance : ∀ ws, Decidable (RemoveFits name ws)
  | [] => inferInstanceAs (Decidable True)
  | w :: ws =>
    have : Decidable (RemoveFits name ws) := instDecidableRemoveFits ws
    inferInstanceAs (Decidable (if name <:+ w then w = name ∨ ws.head? = some name else RemoveFits name ws))

instance : Decidable (RemoveCond name ws listsize) :=
  inferInstanceAs (Decidable (if listsize ≤ 0 then name ∉ ws else ws ≠ [] ∧ name ≠ [] ∧ RemoveFits name ws))

theorem removeRight_iff (hname : 32 ∉ name) (hws : ∀ w ∈ ws, IsWord 32 w) (hnodup : ws.Nodup) :
    RemoveRight name ws listsize ↔ RemoveCond name ws listsize := by
  unfold RemoveCond
  by_cases hsize : listsize ≤ 0
  · have hret : removeFromList name (listText ws) listsize = (.einval, listText ws) := by
      rw [removeFromList, if_pos hsize]
    rw [if_pos hsize, removeRight_of_einval hret]
  rw [if_neg hsize]
  have hloop : removeFromList name (listText ws) listsize = removeLoop name (listText ws) 0 := by
    rw [removeFromList, if_neg hsize]
  by_cases hnil : ws = []
  · -- the loop is not entered
    subst hnil
    have hret : removeLoop name (listText []) 0 = (.ok, []) := by
      rw [removeLoop]
      rfl
    rw [removeRight_of_ok (hloop.trans hret)]
    simp
  by_cases hempty : name = []
  · subst hempty
    have hret : removeLoop [] (listText ws) 0 = (.ok, (removeLoop [] (listText ws) 0).2) :=
      Prod.ext (removeLoop_nil (listText ws) 0) rfl
    rw [removeRight_of_ok (hloop.trans hret)]
    constructor
    · rintro ⟨-, hmem⟩
      exact absurd rfl (hws [] hmem).ne_nil
    · rintro ⟨-, hne, -⟩
      exact absurd rfl hne
  have hword : IsWord 32 name := ⟨hempty, hname⟩
  by_cases hnone : ∀ w ∈ ws, ¬name <:+ w
  · rw [removeRight_of_einval (removeFromList_none hword hws hnil hnone (by omega))]
    exact ⟨fun _ => ⟨hnil, hempty, removeFits_of_not hnone⟩, fun _ h => hnone name h (List.suffix_refl name)⟩
  · obtain ⟨pre, w, post, rfl, hw, hpre⟩ := exists_first hnone
    obtain ⟨x, rfl⟩ := hw
    rw [removeRight_append hword hws hnodup hpre (by omega), removeFits_append (List.suffix_append x name) hpre]
    exact ⟨fun h => ⟨hnil, hempty, h⟩, fun h => h.2.2⟩

/-! ### Adding -/

/-- Of `add_to_list`: when it returns 0 the words are the old ones and the name, which is not there twice. -/
def AddRight (name : Bytes) (ws : List Bytes) (listsize : ℤ) : Prop :=
  (addToList name (listText ws) listsize).1 = .ok →
    wordsOf 32 (addToList name (listText ws) listsize).2 = if name ∈ ws then ws else ws ++ [name]

/-- The first word with the name in it has it at its end only. -/
def FirstEnds (name : Bytes) : List Bytes → Prop
  | [] => name = []
  | w :: ws => if name <:+: w then ¬name <:+: w.dropLast else FirstEnds name ws

instance : ∀ ws, Decidable (FirstEnds name ws)
  | [] => inferInstanceAs (Decidable (name = []))
  | w :: ws =>
    have : Decidable (FirstEnds name ws) := instDecidableFirstEnds ws
    inferInstanceAs (Decidable (if name <:+: w then ¬name <:+: w.dropLast else FirstEnds name ws))

theorem alreadyThere_of_starts (hp : name <+: s) : alreadyThere name s = true ↔ Ends (s.drop name.length) := by
  rw [alreadyThere, strstr_eq_zero hp]
  simp [Ends, or_comm]

theorem alreadyThere_cons {c : UInt8} (h : ¬name <+: c :: s) : alreadyThere name (c :: s) = alreadyThere name s := by
  rw [alreadyThere, strstr_cons h, alreadyThere]
  cases strstr name s with
  | none => rfl
  | some i =>
    simp only [Option.map_some]
    rw [Nat.add_right_comm, List.drop_succ_cons]

theorem infix_dropLast {w : Bytes} (hname : name ≠ []) (hp : name <+: w) : name <:+: w.dropLast ↔ name ≠ w := by
  constructor
  · rintro h rfl
    have hlen : 0 < name.length := List.length_pos_iff.mpr hname
    have hle : name.length ≤ name.dropLast.length := h.length_le
    rw [List.length_dropLast] at hle
    omega
  · intro hne
    obtain ⟨y, rfl⟩ := hp
    have hy : y ≠ [] := by
      rintro rfl
      exact hne (List.append_nil name).symm
    rw [List.dropLast_append_of_ne_nil hy]
    exact (List.prefix_append name y.dropLast).isInfix

/-- The name is found in a word, or behind it. -/
theorem alreadyThere_append {rest : Bytes} (hname : IsWord 32 name) (he : Ends rest) : ∀ {w : Bytes}, 32 ∉ w →
    (alreadyThere name (w ++ rest) = true ↔
      if name <:+: w then ¬name <:+: w.dropLast else alreadyThere name rest = true)
  | [], _ => by simp [hname.ne_nil]
  | c :: w, hw => by
    by_cases hp : name <+: c :: (w ++ rest)
    · have hpre : name <+: c :: w := prefix_of_append hname.sep_notMem he hp
      have hends : Ends ((c :: (w ++ rest)).drop name.length) ↔ name = c :: w := by
        rw [← stands_iff hname.sep_notMem hw he]
        exact (and_iff_right hp).symm
      rw [List.cons_append, alreadyThere_of_starts hp, hends, if_pos hpre.isInfix, infix_dropLast hname.ne_nil hpre,
        not_not]
    · have hpre : ¬name <+: c :: w := fun h => hp (h.trans (List.prefix_append (c :: w) rest))
      have hin_iff : name <:+: c :: w ↔ name <:+: w := by rw [List.infix_cons_iff, or_iff_right hpre]
      have hlast : name <:+: w → (name <:+: (c :: w).dropLast ↔ name <:+: w.dropLast) := by
        intro hin
        have hne : w ≠ [] := by
          rintro rfl
          exact hname.ne_nil (List.infix_nil.mp hin)
        have hnot : ¬name <+: c :: w.dropLast := by
          rw [← List.dropLast_cons_of_ne_nil hne]
          exact fun h => hpre (h.trans (List.dropLast_prefix _))
        rw [List.dropLast_cons_of_ne_nil hne, List.infix_cons_iff, or_iff_right hnot]
      rw [List.cons_append, alreadyThere_cons hp, alreadyThere_append hname he (List.not_mem_of_not_mem_cons hw)]
      by_cases hin : name <:+: w
      · rw [if_pos hin, if_pos (hin_iff.mpr hin), hlast hin]
      · rw [if_neg hin, if_neg (mt hin_iff.mp hin)]

theorem alreadyThere_trail (hname : IsWord 32 name) : ∀ {ws : List Bytes}, (∀ w ∈ ws, IsWord 32 w) →
    (alreadyThere name (trail 32 ws) = true ↔ FirstEnds name ws)
  | [], _ => by simp [alreadyThere, strstr, FirstEnds, hname.ne_nil]
  | w :: ws, hws => by
    obtain ⟨hw, hws⟩ := List.forall_mem_cons.mp hws
    have hspace : ¬name <+: 32 :: (w ++ trail 32 ws) := by
      intro hp
      exact hname.ne_nil (List.prefix_nil.mp (prefix_of_append (l := []) hname.sep_notMem (.inr rfl) hp))
    rw [trail_cons, alreadyThere_cons hspace, alreadyThere_append hname (ends_trail ws) hw.sep_notMem,
      alreadyThere_trail hname hws, FirstEnds]

/-- What the test finds. -/
theorem alreadyThere_iff (hname : 32 ∉ name) (hws : ∀ w ∈ ws, IsWord 32 w) :
    alreadyThere name (listText ws) = true ↔ FirstEnds name ws := by
  cases ws with
  | nil =>
    cases name with
    | nil => simp [alreadyThere, listText, strstr, FirstEnds]
    | cons c name => simp [alreadyThere, listText, strstr, FirstEnds]
  | cons w ws =>
    obtain ⟨hw, hws⟩ := List.forall_mem_cons.mp hws
    rw [listText, intercalate_eq_append_trail]
    by_cases hempty : name = []
    · subst hempty
      rw [alreadyThere_of_starts List.nil_prefix, FirstEnds]
      cases w with
      | nil => exact absurd rfl hw.ne_nil
      | cons c w =>
        have hc : c ≠ 32 := by
          rintro rfl
          exact hw.sep_notMem List.mem_cons_self
        simp [Ends, hc, List.nil_infix]
    · have hword : IsWord 32 name := ⟨hempty, hname⟩
      rw [alreadyThere_append hword (ends_trail ws) hw.sep_notMem, alreadyThere_trail hword hws, FirstEnds]

theorem addToList_room (hws : ∀ w ∈ ws, IsWord 32 w) (hsize : 0 < listsize)
    (hthere : ¬alreadyThere name (listText ws) = true) (hroom : (listText ws).length + name.length + 1 < listsize) :
    addToList name (listText ws) listsize = (.ok, listText (ws ++ [name])) := by
  rw [addToList, if_neg (by omega), if_neg hthere, if_neg (by omega)]
  by_cases hnil : ws = []
  · subst hnil
    simp [listText]
  · have hne : listText ws ≠ [] := intercalate_ne_nil hnil hws
    rw [if_pos hne, listText, listText, intercalate_concat hnil, List.append_assoc]
    rfl

/-- When `add_to_list` is right: a name that it takes for there is there, and one that it adds is not. -/
def AddCond (name : Bytes) (ws : List Bytes) (listsize : ℤ) : Prop :=
  (FirstEnds name ws → listsize ≤ 0 ∨ name ∈ ws) ∧
    (¬FirstEnds name ws → listsize ≤ (listText ws).length + name.length + 1 ∨ name ≠ [] ∧ name ∉ ws)

instance : Decidable (AddCond name ws listsize) := inferInstanceAs (Decidable (_ ∧ _))

theorem addRight_iff (hname : 32 ∉ name) (hws : ∀ w ∈ ws, IsWord 32 w) :
    AddRight name ws listsize ↔ AddCond name ws listsize := by
  unfold AddRight AddCond
  rw [← alreadyThere_iff hname hws]
  by_cases hsize : listsize ≤ 0
  · have hret : addToList name (listText ws) listsize = (.einval, listText ws) := by
      rw [addToList, if_pos hsize]
    rw [hret]
    have hroom : listsize ≤ (listText ws).length + name.length + 1 := by omega
    simp [hsize, hroom]
  by_cases hthere : alreadyThere name (listText ws) = true
  · have hret : addToList name (listText ws) listsize = (.ok, listText ws) := by
      rw [addToList, if_neg hsize, if_pos hthere]
    have hread : wordsOf 32 (listText ws) = ws := wordsOf_intercalate hws
    rw [hret]
    by_cases hmem : name ∈ ws
    · simp [hmem, hthere, hread]
    · simp [hmem, hthere, hsize, hread]
  · by_cases hroom : listsize ≤ (listText ws).length + name.length + 1
    · have hret : addToList name (listText ws) listsize = (.emsgsize, listText ws) := by
        rw [addToList, if_neg hsize, if_neg hthere, if_pos hroom]
      simp [hret, hroom, hthere]
    · rw [addToList_room hws (by omega) hthere (by omega)]
      simp only [forall_const, hroom, false_or, hthere, Bool.false_eq_true, false_implies, true_and, not_false_eq_true]
      by_cases hempty : name = []
      · -- an empty name is no word of the text
        subst hempty
        have hnot : [] ∉ ws := fun h => (hws [] h).ne_nil rfl
        rw [if_neg hnot]
        constructor
        · intro h
          exact absurd rfl (ne_nil_of_mem_wordsOf (h ▸ List.mem_append_right ws (List.mem_singleton.mpr rfl)))
        · rintro ⟨hne, -⟩
          exact absurd rfl hne
      · have hwords : ∀ w ∈ ws ++ [name], IsWord 32 w := by
          refine List.forall_mem_append.mpr ⟨hws, ?_⟩
          intro w hw
          rw [List.mem_singleton.mp hw]
          exact ⟨hempty, hname⟩
        rw [listText, wordsOf_intercalate hwords]
        by_cases hmem : name ∈ ws
        · simp [hmem]
        · simp [hmem, hempty]

/-! ### The lists -/

/-- **The names are edited as a set, exactly when** the place that is found is the name's own. -/
theorem nameList_iff {name : Bytes} {ws : List Bytes} (listsize : ℤ) (hname : 32 ∉ name)
    (hws : ∀ w ∈ ws, IsWord 32 w) (hnodup : ws.Nodup) :
    (AddRight name ws listsize ↔ AddCond name ws listsize) ∧
      (RemoveRight name ws listsize ↔ RemoveCond name ws listsize) :=
  ⟨addRight_iff hname hws, removeRight_iff hname hws hnodup⟩

/-- `vlan1` is added to `eth0 eth1`, and `eth1` removed. -/
theorem nameList_iff_eth : AddRight (bytes "vlan1") [bytes "eth0", bytes "eth1"] 32 ∧
    RemoveRight (bytes "eth1") [bytes "eth0", bytes "eth1"] 32 :=
  ⟨(nameList_iff 32 (by decide) (by decide) (by decide)).1.mpr (by decide),
    (nameList_iff 32 (by decide) (by decide) (by decide)).2.mpr (by decide)⟩

/-- `eth1` is added to `eth10 eth1` a second time, and removed from `weth1`, where it is no word. -/
theorem eth10_added_twice :
    (¬ ∀ (name : Bytes) (ws : List Bytes) (listsize : ℤ), 32 ∉ name → (∀ w ∈ ws, IsWord 32 w) → ws.Nodup →
      AddRight name ws listsize) ∧
    ¬ ∀ (name : Bytes) (ws : List Bytes) (listsize : ℤ), 32 ∉ name → (∀ w ∈ ws, IsWord 32 w) → ws.Nodup →
      RemoveRight name ws listsize := by
  constructor
  · intro h
    have hadd := h (bytes "eth1") [bytes "eth10", bytes "eth1"] 32 (by decide) (by decide) (by decide)
    exact absurd (hadd (by decide)) (by decide)
  · intro h
    have hword : IsWord 32 (bytes "eth1") := by decide
    have hfirst : RemoveRight (bytes "eth1") ([] ++ (bytes "w" ++ bytes "eth1") :: []) 32 ↔
        bytes "w" ++ bytes "eth1" = bytes "eth1" ∨ ([] : List Bytes).head? = some (bytes "eth1") :=
      removeRight_append hword (by decide) (by decide) (by decide) (by decide)
    exact absurd (hfirst.mp (h _ _ 32 (by decide) (by decide) (by decide))) (by decide)

end Ifname
end Router
