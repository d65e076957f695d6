/-
# Reading the deletions of a query

`router/httpd/web_ex.c`: `websScan` goes through the parameters of a query, copies the name and the value of each into
arrays of its own, and enters the rows that are to be deleted into `delMap`. It looks for the next '=' and the next '&'
and takes what lies between for the value, whichever comes first.

The model keeps a list of what is written to the arrays of `web_ex.c` and of pointers that are used though nothing was
found. `websScan_iff` says for which queries all of it is safe: `ScanFits` walks through the parameters.

A copy of a negative length goes through the whole memory, and nothing comes after it. Behind a write that does not fit
its array, the model goes on as if it did.
-/
import RouterFirmware.Httpd.Variables
import RouterFirmware.Lib.Search

namespace Router
namespace Httpd

open CMem CText

/-! ### What is used -/

/-- The arrays that are written to: those of `websScan`, those of `apply_cgi`, and the global ones. -/
inductive Buf where
  | value
  | name
  | groupid
  | delMap
  | groupId
  | urlStr
  | currentUrlGlocal
  | systemCmd
  | urlcache
  | urlcache2
deriving DecidableEq

/-- How many elements it has. -/
def Buf.size : Buf → ℕ
  | value | name => 512
  | groupid | groupId | urlStr | systemCmd => 64
  | delMap => 300
  | currentUrlGlocal => 256
  | urlcache | urlcache2 => 128

/-- Elements written from `pos` on, a pointer used that is not there, an entry of the variables of a service. -/
inductive Event where
  | write (buf : Buf) (pos : ℤ) (len : ℕ)
  | missing
  | entry (sid k : ℕ)
deriving DecidableEq

@[simp] def Event.Safe : Event → Prop
  | write buf pos len => 0 ≤ pos ∧ pos + len ≤ buf.size
  | missing => False
  | entry sid k => k < (getVariables sid).length

def Safe (events : List Event) : Prop := ∀ e ∈ events, e.Safe

@[simp] theorem safe_nil : Safe [] := List.forall_mem_nil _

@[simp] theorem safe_cons {e : Event} {events : List Event} : Safe (e :: events) ↔ e.Safe ∧ Safe events :=
  List.forall_mem_cons

@[simp] theorem safe_append {l l' : List Event} : Safe (l ++ l') ↔ Safe l ∧ Safe l' := List.forall_mem_append

namespace Scan

/-! ### `websScan` -/

/-- `strchr(str + p, c)`. -/
def strchrFrom (str : Bytes) (c : UInt8) (p : ℕ) : Option ℕ := (strpbrk [c] (str.drop p)).map (p + ·)

/-- `flag && strncmp(v1+1, groupid, strlen(groupid)) == 0`, with what stands behind `v1`. -/
def isItem (groupid : Option Bytes) (rest : Bytes) : Bool := groupid.any fun id => id.isPrefixOf rest

/-- The copy of the value: `strncpy` and its NUL in front of a '&', else `strcpy`. -/
def copyValue (v3 : Option ℕ) (len : ℤ) : List Event :=
  match v3 with
  | some _ => [.write .value 0 (len % 2 ^ 32).toNat, .write .value len 1]
  | none => [.write .value 0 (len + 1).toNat]

/-- The loop, in `n` turns at most. `groupid` has a text when `flag` is set. -/
def loop (str : Bytes) : ℕ → Option ℕ → ℕ → Option Bytes → List Event
  | 0, _, _, _ => []
  | _ + 1, none, i, _ => [.write .delMap i 1]
  | n + 1, some v1, i, groupid =>
    match strchrFrom str 61 (v1 + 1) with
    | none => [.missing]
    | some v2 =>
      let v3 := strchrFrom str 38 (v1 + 1)
      let len : ℤ := (v3.getD str.length : ℕ) - v2 - 1
      if len < 0 then copyValue v3 len
      else
        let value := (str.drop (v2 + 1)).take len.toNat
        let rest := str.drop (v1 + 1)
        copyValue v3 len ++ [.write .name 0 (v2 - v1 - 1), .write .name (v2 - v1 - 1 : ℕ) 1] ++
          if (strchrFrom str 32 (v1 + 1)).all fun sp => v2 < sp then
            if isItem groupid rest then
              .write .delMap i 1 ::
                if atoi value = -1 then [.write .delMap i 1] else loop str n v3 (i + 1) groupid
            else if (bytes "group_id").isPrefixOf rest then
              .write .groupid 0 (value.length + 3) :: loop str n v3 i (some (value ++ bytes "_s"))
            else loop str n v3 i groupid
          else loop str n v3 i groupid

def websScan (str : Bytes) : List Event := loop str (str.length + 1) (strchrFrom str 63 0) 0 none

/-! ### The parameters -/

/-- In front of the first '='. -/
def nameOf (param : Bytes) : Bytes := param.takeWhile (· ≠ 61)

/-- Behind it. -/
def valueOf (param : Bytes) : Bytes := param.drop ((nameOf param).length + 1)

/-- Each parameter has a '=', with a name and a value that fit; the value of a `group_id` fits with what is put behind
it; and there are no more deletions than the map takes, one place being for its end. A deletion of -1 is the last
parameter that is looked at. -/
def ScanFits : Option Bytes → ℕ → List Bytes → Prop
  | _, i, [] => i < 300
  | groupid, i, param :: params =>
    61 ∈ param ∧ (nameOf param).length < 512 ∧ (valueOf param).length < 512 ∧
      if 32 ∈ nameOf param then ScanFits groupid i params
      else if isItem groupid param then
        i < 300 ∧ (atoi (valueOf param) ≠ -1 → ScanFits groupid (i + 1) params)
      else if (bytes "group_id").isPrefixOf param then
        (valueOf param).length < 62 ∧ ScanFits (some (valueOf param ++ bytes "_s")) i params
      else ScanFits groupid i params

/-! ### One parameter -/

theorem strchrFrom_some {str l rest : Bytes} {c : UInt8} {p : ℕ} (h : str.drop p = l ++ c :: rest) (hl : c ∉ l) :
    strchrFrom str c p = some (p + l.length) := by
  unfold strchrFrom
  rw [h, strpbrk_append List.mem_cons_self rest]
  · rfl
  · intro x hx hc
    rw [List.mem_singleton] at hc
    exact hl (hc ▸ hx)

theorem strchrFrom_none {str : Bytes} {c : UInt8} {p : ℕ} (h : c ∉ str.drop p) : strchrFrom str c p = none := by
  unfold strchrFrom strpbrk
  rw [List.findIdx?_eq_none_iff.mpr, Option.map_none]
  intro x hx
  rw [decide_eq_false_iff_not, List.mem_singleton]
  rintro rfl
  exact h hx

/-- The first place of a byte. -/
theorem first_of_mem {c : UInt8} {l : Bytes} (h : c ∈ l) : ∃ a b, c ∉ a ∧ l = a ++ c :: b := by
  obtain ⟨a, b, rfl, ha⟩ := List.eq_append_cons_of_mem h
  exact ⟨a, b, ha, rfl⟩

theorem param_eq {param : Bytes} (h : 61 ∈ param) : 61 ∉ nameOf param ∧ param = nameOf param ++ 61 :: valueOf param := by
  obtain ⟨a, b, ha, rfl⟩ := first_of_mem h
  have hname : nameOf (a ++ 61 :: b) = a := by
    unfold nameOf
    rw [List.takeWhile_append_of_pos, List.takeWhile_cons_of_neg (by decide), List.append_nil]
    intro x hx
    rw [decide_eq_true_eq]
    rintro rfl
    exact ha hx
  have hvalue : valueOf (a ++ 61 :: b) = b := by
    unfold valueOf
    rw [hname, List.drop_append, Nat.add_sub_cancel_left, List.drop_eq_nil_of_le (Nat.le_succ _)]
    rfl
  rw [hname, hvalue]
  exact ⟨ha, rfl⟩

/-- What has no '&' is looked for in the parameter only. -/
theorem isPrefixOf_append_sep {id param rest : Bytes} {c : UInt8} (hid : c ∉ id) :
    id.isPrefixOf (param ++ c :: rest) = id.isPrefixOf param := by
  rw [Bool.eq_iff_iff, List.isPrefixOf_iff_prefix, List.isPrefixOf_iff_prefix]
  constructor
  · intro h
    rcases List.prefix_or_prefix_of_prefix h (List.prefix_append param _) with hp | ⟨t, rfl⟩
    · exact hp
    · rw [List.prefix_append_right_inj] at h
      cases t with
      | nil => rw [List.append_nil]
      | cons x t =>
        obtain ⟨rfl, -⟩ := List.cons_prefix_cons.mp h
        exact absurd (List.mem_append_right _ List.mem_cons_self) hid
  · intro h
    exact h.trans (List.prefix_append _ _)

theorem safe_copyValue {v3 : Option ℕ} {n : ℕ} : Safe (copyValue v3 n) ↔ n < 512 := by
  cases v3 with
  | none =>
    simp [copyValue, Buf.size]
  | some v =>
    simp [copyValue, Buf.size]
    omega

theorem not_safe_copyValue {v : ℕ} {len : ℤ} (h : len < 0) : ¬Safe (copyValue (some v) len) := by
  simp [copyValue]
  omega

section

variable {str param tail : Bytes} {v1 n i : ℕ} {groupid : Option Bytes}

theorem drop_param (hdrop : str.drop (v1 + 1) = param ++ tail) (h61 : 61 ∈ param) :
    str.drop (v1 + 1) = nameOf param ++ 61 :: (valueOf param ++ tail) :=
  calc str.drop (v1 + 1) = param ++ tail := hdrop
    _ = nameOf param ++ 61 :: valueOf param ++ tail := by rw [← (param_eq h61).2]
    _ = nameOf param ++ 61 :: (valueOf param ++ tail) := List.append_assoc _ _ _

/-- The end of the parameter. -/
theorem v3_getD (hdrop : str.drop (v1 + 1) = param ++ tail) (hne : param ≠ []) (h38 : 38 ∉ param)
    (htail : tail = [] ∨ ∃ rest, tail = 38 :: rest) :
    (strchrFrom str 38 (v1 + 1)).getD str.length = v1 + 1 + param.length := by
  rcases htail with rfl | ⟨rest, rfl⟩
  · rw [List.append_nil] at hdrop
    rw [strchrFrom_none (by rwa [hdrop]), Option.getD_none]
    have hlen := congrArg List.length hdrop
    have hpos := List.length_pos_of_ne_nil hne
    rw [List.length_drop] at hlen
    omega
  · rw [strchrFrom_some hdrop h38, Option.getD_some]

/-- A blank counts if it stands in the name. -/
theorem blank_iff (hdrop : str.drop (v1 + 1) = param ++ tail) (h61 : 61 ∈ param) :
    (strchrFrom str 32 (v1 + 1)).all (fun sp => v1 + 1 + (nameOf param).length < sp) = true ↔ 32 ∉ nameOf param := by
  have hsplit := drop_param hdrop h61
  by_cases hname : 32 ∈ nameOf param
  · obtain ⟨a, b, ha, hab⟩ := first_of_mem hname
    have hsp : strchrFrom str 32 (v1 + 1) = some (v1 + 1 + a.length) := by
      apply @strchrFrom_some str a (b ++ 61 :: (valueOf param ++ tail)) _ _ _ ha
      rw [hsplit, hab, List.append_assoc, List.cons_append]
    have hlen := congrArg List.length hab
    rw [List.length_append, List.length_cons] at hlen
    simp only [hsp, Option.all_some, decide_eq_true_eq, hname, not_true_eq_false, iff_false]
    omega
  · simp only [hname, not_false_eq_true, iff_true]
    by_cases hrest : 32 ∈ valueOf param ++ tail
    · obtain ⟨a, b, ha, hab⟩ := first_of_mem hrest
      have hsp : strchrFrom str 32 (v1 + 1) = some (v1 + 1 + (nameOf param ++ 61 :: a).length) := by
        apply @strchrFrom_some str (nameOf param ++ 61 :: a) b
        · rw [hsplit, hab, List.append_assoc, List.cons_append]
        · simp [hname, ha]
      rw [hsp, Option.all_some, decide_eq_true_eq, List.length_append, List.length_cons]
      omega
    · rw [strchrFrom_none, Option.all_none]
      rw [hsplit, List.mem_append, List.mem_cons]
      simp only [hname, hrest, or_false, false_or]
      decide

/-- One parameter with a '='. -/
theorem loop_param (hdrop : str.drop (v1 + 1) = param ++ tail) (h61 : 61 ∈ param) (h38 : 38 ∉ param)
    (htail : tail = [] ∨ ∃ rest, tail = 38 :: rest) (hid : ∀ id ∈ groupid, 38 ∉ id) :
    loop str (n + 1) (some v1) i groupid =
      let v3 := strchrFrom str 38 (v1 + 1)
      copyValue v3 (valueOf param).length ++
        [.write .name 0 (nameOf param).length, .write .name (nameOf param).length 1] ++
          if 32 ∈ nameOf param then loop str n v3 i groupid
          else if isItem groupid param then
            .write .delMap i 1 ::
              if atoi (valueOf param) = -1 then [.write .delMap i 1] else loop str n v3 (i + 1) groupid
          else if (bytes "group_id").isPrefixOf param then
            .write .groupid 0 ((valueOf param).length + 3) ::
              loop str n v3 i (some (valueOf param ++ bytes "_s"))
          else loop str n v3 i groupid := by
  obtain ⟨hname, hparam⟩ := param_eq h61
  have hne : param ≠ [] := List.ne_nil_of_mem h61
  have hv2 : strchrFrom str 61 (v1 + 1) = some (v1 + 1 + (nameOf param).length) :=
    strchrFrom_some (drop_param hdrop h61) hname
  have hplen := congrArg List.length hparam
  rw [List.length_append, List.length_cons] at hplen
  have hlen : ((v1 + 1 + param.length : ℕ) : ℤ) - (v1 + 1 + (nameOf param).length : ℕ) - 1 =
      (valueOf param).length := by
    omega
  have hvalue : (str.drop (v1 + 1 + (nameOf param).length + 1)).take (valueOf param).length = valueOf param := by
    rw [Nat.add_assoc (v1 + 1), ← List.drop_drop, hdrop, List.drop_append_of_le_length (by omega)]
    show (valueOf param ++ tail).take _ = _
    rw [List.take_left]
  have hlooked : ∀ id : Bytes, 38 ∉ id → id.isPrefixOf (param ++ tail) = id.isPrefixOf param := by
    intro id hno
    rcases htail with rfl | ⟨rest, rfl⟩
    · rw [List.append_nil]
    · exact isPrefixOf_append_sep hno
  have hitem : isItem groupid (param ++ tail) = isItem groupid param := by
    cases groupid with
    | none => rfl
    | some id => exact hlooked id (hid id rfl)
  have hnamelen : v1 + 1 + (nameOf param).length - v1 - 1 = (nameOf param).length := by omega
  rw [loop, hv2]
  simp only [v3_getD hdrop hne h38 htail, hlen, Int.toNat_natCast, hvalue, hdrop, hitem, hnamelen]
  rw [hlooked _ (by decide), if_neg (by omega)]
  by_cases hblank : 32 ∈ nameOf param
  · rw [if_pos hblank, if_neg]
    rw [blank_iff hdrop h61]
    exact not_not_intro hblank
  · rw [if_neg hblank, if_pos ((blank_iff hdrop h61).mpr hblank)]

/-- One parameter without. -/
theorem not_safe_param (hdrop : str.drop (v1 + 1) = param ++ tail) (h61 : 61 ∉ param) (h38 : 38 ∉ param)
    (htail : tail = [] ∨ ∃ rest, tail = 38 :: rest) : ¬Safe (loop str (n + 1) (some v1) i groupid) := by
  by_cases hrest : 61 ∈ tail
  · rcases htail with rfl | ⟨rest, rfl⟩
    · cases hrest
    · obtain ⟨a, b, ha, hab⟩ := first_of_mem hrest
      obtain ⟨a, rfl⟩ : ∃ a', a = 38 :: a' := by
        cases a with
        | nil => cases hab
        | cons c a => exact ⟨a, by rw [(List.cons_eq_cons.mp hab).1]⟩
      have hv2 : strchrFrom str 61 (v1 + 1) = some (v1 + 1 + (param ++ 38 :: a).length) := by
        apply @strchrFrom_some str (param ++ 38 :: a) b
        · rw [hdrop, hab, List.append_assoc]
        · rw [List.mem_append, not_or]
          exact ⟨h61, ha⟩
      rw [loop, hv2, strchrFrom_some hdrop h38]
      dsimp only [Option.getD_some]
      rw [List.length_append, List.length_cons, if_pos (by omega)]
      exact not_safe_copyValue (by omega)
  · rw [loop, strchrFrom_none]
    · simp
    · rw [hdrop, List.mem_append, not_or]
      exact ⟨h61, hrest⟩

/-- One parameter, and the others if they are scanned as their names and values say. -/
theorem safe_param {params : List Bytes} (hdrop : str.drop (v1 + 1) = param ++ tail) (h38 : 38 ∉ param)
    (htail : tail = [] ∨ ∃ rest, tail = 38 :: rest) (hid : ∀ id ∈ groupid, 38 ∉ id)
    (hnext : 61 ∈ param → ∀ i groupid, (∀ id ∈ groupid, 38 ∉ id) →
      (Safe (loop str n (strchrFrom str 38 (v1 + 1)) i groupid) ↔ ScanFits groupid i params)) :
    Safe (loop str (n + 1) (some v1) i groupid) ↔ ScanFits groupid i (param :: params) := by
  by_cases h61 : 61 ∈ param
  swap
  · simp [ScanFits, h61, not_safe_param hdrop h61 h38 htail]
  have hnext := hnext h61
  have hvalue : 38 ∉ valueOf param ++ bytes "_s" := by
    rw [List.mem_append, not_or]
    exact ⟨fun hc => h38 (List.mem_of_mem_drop hc), by decide⟩
  have hname : Safe [.write .name 0 (nameOf param).length, .write .name (nameOf param).length 1] ↔
      (nameOf param).length < 512 := by
    simp [Buf.size]
    omega
  have hdel : ∀ k : ℕ, (Event.write .delMap k 1).Safe ↔ k < 300 := by
    intro k
    simp [Buf.size]
  have hgroupid : (Event.write .groupid 0 ((valueOf param).length + 3)).Safe ↔ (valueOf param).length < 62 := by
    simp [Buf.size]
    omega
  rw [loop_param hdrop h61 h38 htail hid, ScanFits]
  dsimp only
  rw [safe_append, safe_append, safe_copyValue, hname]
  have hrest : ∀ {P Q : Prop}, (P ↔ Q) → (((valueOf param).length < 512 ∧ (nameOf param).length < 512) ∧ P ↔
      61 ∈ param ∧ (nameOf param).length < 512 ∧ (valueOf param).length < 512 ∧ Q) := by
    intro P Q hPQ
    rw [hPQ]
    tauto
  apply hrest
  by_cases hblank : 32 ∈ nameOf param
  · rw [if_pos hblank, if_pos hblank]
    exact hnext i groupid hid
  rw [if_neg hblank, if_neg hblank]
  by_cases hitem : isItem groupid param = true
  · rw [if_pos hitem, if_pos hitem, safe_cons, hdel]
    by_cases hend : atoi (valueOf param) = -1
    · rw [if_pos hend, safe_cons, hdel]
      simp [hend]
    · rw [if_neg hend, hnext (i + 1) groupid hid]
      simp [hend]
  rw [if_neg hitem, if_neg hitem]
  by_cases hgroup : (bytes "group_id").isPrefixOf param = true
  · rw [if_pos hgroup, if_pos hgroup, safe_cons, hgroupid, hnext i (some (valueOf param ++ bytes "_s"))]
    intro id hmem
    cases hmem
    exact hvalue
  · rw [if_neg hgroup, if_neg hgroup]
    exact hnext i groupid hid

end

/-! ### The query -/

/-- From a separator on, the loop is safe if the parameters behind it fit. -/
theorem loop_safe {str : Bytes} : ∀ {n v1 i : ℕ} {groupid : Option Bytes}, (str.drop (v1 + 1)).length < n →
    (∀ id ∈ groupid, 38 ∉ id) →
      (Safe (loop str n (some v1) i groupid) ↔ ScanFits groupid i ((str.drop (v1 + 1)).splitOn 38))
  | n + 1, v1, i, groupid, hlen, hid => by
    by_cases hmem : 38 ∈ str.drop (v1 + 1)
    · obtain ⟨param, rest, h38, hdrop⟩ := first_of_mem hmem
      have hrest : str.drop (v1 + 1 + param.length + 1) = rest := by
        rw [Nat.add_assoc (v1 + 1), ← List.drop_drop, hdrop, List.drop_append]
        simp
      rw [safe_param hdrop h38 (.inr ⟨rest, rfl⟩) hid, hdrop, List.splitOn_append_cons_self_of_not_mem h38]
      intro _ i groupid hid
      have hshort : (str.drop (v1 + 1 + param.length + 1)).length < n := by
        rw [hdrop, List.length_append, List.length_cons] at hlen
        rw [hrest]
        omega
      rw [strchrFrom_some hdrop h38, loop_safe hshort hid, hrest]
    · rw [List.splitOn_eq_singleton hmem]
      apply @safe_param str (str.drop (v1 + 1)) [] v1 n i groupid [] (List.append_nil _).symm hmem (.inl rfl) hid
      intro h61 i groupid _
      obtain ⟨k, rfl⟩ : ∃ k, n = k + 1 := by
        have := List.length_pos_of_mem h61
        exact ⟨n - 1, by omega⟩
      rw [strchrFrom_none hmem, loop, ScanFits, safe_cons]
      simp [Buf.size]

/-- A query is scanned safely if its parameters fit. -/
theorem websScan_iff {path query : Bytes} (h : 63 ∉ path) :
    Safe (websScan (path ++ 63 :: query)) ↔ ScanFits none 0 (query.splitOn 38) := by
  have hdrop : (path ++ 63 :: query).drop (path.length + 1) = query := by
    rw [List.drop_append]
    simp
  have hv1 : strchrFrom (path ++ 63 :: query) 63 0 = some path.length := by
    rw [strchrFrom_some List.drop_zero h, Nat.zero_add]
  have hlen : ((path ++ 63 :: query).drop (path.length + 1)).length < (path ++ 63 :: query).length + 1 := by
    rw [List.length_drop]
    omega
  unfold websScan
  rw [hv1, loop_safe hlen (by simp), hdrop]

/-- Without a query, the map is emptied. -/
theorem websScan_path {path : Bytes} (h : 63 ∉ path) : websScan path = [.write .delMap 0 1] := by
  unfold websScan
  rw [strchrFrom_none h]
  rfl

end Scan
end Httpd
end Router
