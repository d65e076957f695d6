/-
# The arguments in a SOAP body

`upnp/upnp/soap.c`: `soap_action` looks for the element of the action behind ":Body>" and reads the elements in it as
arguments, until something begins with "</" and the name of the action. It works on the body where it lies: names and
values are pointers into it, and are ended by NULs written over a ' ', a '>' or a '<'.

`Elements close text args` says how a text is read, whatever the positions: `soapLoop_spec` is the loop on a buffer
that holds such a text, `soapLoop_missing` the one that uses a '>' it has not found. `soapAction_safe_iff` says for
which bodies nothing goes wrong.

The store of an argument behind `args[9]` overwrites the stack. The model has the argument in the list and goes on.
-/
import RouterFirmware.Lib.InPlace

namespace Router
namespace Upnp
namespace Soap

open CMem CText

/-! ### The code -/

/-- `if (sp && sp < eb) *sp = '\0';`. -/
def cutBlank (m : Mem) (sp : Option ℕ) (eb : ℕ) : Mem :=
  match sp with
  | some sp => if sp < eb then write m sp [0] else m
  | none => m

/-- What a turn of the loop does: it leaves the loop, uses a '>' that was not found, or has an argument. -/
inductive Turn where
  | leave (m : Mem)
  | missing
  | arg (m : Mem) (name value body : ℕ)

/-- One turn, `body` being where the rest begins. -/
def turn (size : ℕ) (pattern : Bytes) (m : Mem) (body : ℕ) : Turn :=
  match strstrAt size (bytes "<") m body with
  | none => .leave m
  | some argstart =>
    if pattern.isPrefixOf (scan m argstart (size - argstart)) then .leave m
    else
      let argstart := argstart + 1
      let sp := strchr m 32 argstart (size - argstart)
      match strchr m 62 argstart (size - argstart) with
      | none => .missing
      | some eb =>
        let m := write (cutBlank m sp eb) eb [0]
        let argend := eb
        let argstart := match strchr m 58 argstart (size - argstart) with
          | some colon => colon + 1
          | none => argstart
        if m (argend - 1) = 47 then .arg m argstart argend (argend + 1)
        else
          match strchr m 60 (argend + 1) (size - (argend + 1)) with
          | none => .leave m
          | some valend => .arg (write m valend [0]) argstart (argend + 1) (valend + 1)

/-- What comes of the loop: no end within the turns it was given, a '>' used that was not found, or the arguments, as
the positions of their names and values. -/
inductive Outcome where
  | running
  | missing
  | done (m : Mem) (args : List (ℕ × ℕ))

/-- The loop over the arguments. -/
def soapLoop (size : ℕ) (pattern : Bytes) : ℕ → Mem → ℕ → List (ℕ × ℕ) → Outcome
  | 0, _, _, _ => .running
  | fuel + 1, m, body, args =>
    match turn size pattern m body with
    | .leave m => .done m args
    | .missing => .missing
    | .arg m name value body =>
      let args := args ++ [(name, value)]
      if m body = 0 then .done m args else soapLoop size pattern fuel m body args

/-- The part of `soap_action` that reads the element of the action. -/
def readAction (size fuel : ℕ) (m : Mem) (actstart : ℕ) : Outcome :=
  match strchr m 32 actstart (size - actstart), strchr m 62 actstart (size - actstart) with
  | some sp, some eb =>
    let m := cutBlank m (some sp) eb
    let body := eb + 1
    if m (body - 2) = 47 then .done m []
    else
      let pattern := (bytes "</" ++ scan m actstart (size - actstart)).take 79
      soapLoop size pattern fuel m body []
  | _, _ => .done m []

/-- The part that reads the body. -/
def readBody (size fuel : ℕ) (m : Mem) (body : ℕ) : Outcome :=
  match strstrAt size (bytes ":Body>") m body with
  | none => .done m []
  | some u =>
    let body := u + 1
    match strstrAt size (bytes "<") m body with
    | none => .done m []
    | some u => readAction size fuel m (u + 1)

/-- What `soap_action` does: the error SOAP_INVALID_ACTION, or the action with what was read. -/
inductive Action where
  | error
  | invoke (ac : Bytes) (args : Outcome)

/-- `soap_action(up, psvc, soapaction, body)`, with `fuel` turns for its loop. -/
def soapAction (size fuel : ℕ) (soapaction : Option Bytes) (m : Mem) (body : ℕ) : Action :=
  match soapaction with
  | none => .error
  | some soapaction =>
    match strpbrk [35] soapaction with
    | none => .error
    | some k => .invoke (soapaction.drop (k + 1)) (readBody size fuel m body)

/-- The strings at the positions. -/
def argsIn (size : ℕ) (m : Mem) (args : List (ℕ × ℕ)) : List (Bytes × Bytes) :=
  args.map fun arg => (scan m arg.1 (size - arg.1), scan m arg.2 (size - arg.2))

/-! ### How a text is read -/

/-- What is behind the first ':', or all of it. -/
def localName (name : Bytes) : Bytes := if 58 ∈ name then (name.dropWhile (· ≠ 58)).tail else name

/-- The name in a tag: up to a blank, without what stands in front of ':'. -/
def tagName (tag : Bytes) : Bytes := localName (tag.takeWhile (· ≠ 32))

/-- A text, read as arguments up to `close`. -/
inductive Elements (close : Bytes) : Bytes → List (Bytes × Bytes) → Prop
  /-- No element. -/
  | nil {text : Bytes} (h : 60 ∉ text) : Elements close text []
  /-- The end of the action. -/
  | close {gap rest : Bytes} (h : 60 ∉ gap) (hclose : close <+: 60 :: rest) : Elements close (gap ++ 60 :: rest) []
  /-- A value up to the end of the text. -/
  | unended {gap tag value : Bytes} (h : 60 ∉ gap) (hclose : ¬close <+: 60 :: (tag ++ 62 :: value)) (htag : 62 ∉ tag)
      (hslash : tag.getLast? ≠ some 47) (hvalue : 60 ∉ value) : Elements close (gap ++ 60 :: (tag ++ 62 :: value)) []
  /-- A tag that ends with '/'. -/
  | empty {gap tag rest : Bytes} {args : List (Bytes × Bytes)} (h : 60 ∉ gap)
      (hclose : ¬close <+: 60 :: (tag ++ 62 :: rest)) (htag : 62 ∉ tag) (hslash : tag.getLast? = some 47)
      (hrest : Elements close rest args) : Elements close (gap ++ 60 :: (tag ++ 62 :: rest)) ((tagName tag, []) :: args)
  /-- A tag, a value, and the '<' of the closing tag. -/
  | value {gap tag value rest : Bytes} {args : List (Bytes × Bytes)} (h : 60 ∉ gap)
      (hclose : ¬close <+: 60 :: (tag ++ 62 :: (value ++ 60 :: rest))) (htag : 62 ∉ tag)
      (hslash : tag.getLast? ≠ some 47) (hvalue : 60 ∉ value) (hrest : Elements close rest args) :
      Elements close (gap ++ 60 :: (tag ++ 62 :: (value ++ 60 :: rest))) ((tagName tag, value) :: args)

/-! ### A turn -/

section Turn

variable {size p : ℕ} {m : Mem} {tag rest : Bytes}

theorem cutBlank_none (h : Stands m p (tag ++ rest)) (hsize : p + (tag ++ rest).length < size) (hblank : 32 ∉ tag) :
    cutBlank m (strchr m 32 p (size - p)) (p + tag.length) = m := by
  by_cases hrest : 32 ∈ rest
  · obtain ⟨a, b, rfl, ha⟩ := List.eq_append_cons_of_mem hrest
    rw [← List.append_assoc] at h hsize
    have hnot : 32 ∉ tag ++ a := by
      rw [List.mem_append]
      tauto
    rw [h.strchr hnot (by simp at hsize ⊢; omega), cutBlank, if_neg (by simp)]
  · have hnot : 32 ∉ tag ++ rest := by
      rw [List.mem_append]
      tauto
    rw [h.strchr_none (by decide) hnot, cutBlank]

theorem cutBlank_some {nm attr : Bytes} (h : Stands m p (nm ++ 32 :: (attr ++ rest)))
    (hsize : p + (nm ++ 32 :: (attr ++ rest)).length < size) (hblank : 32 ∉ nm) :
    cutBlank m (strchr m 32 p (size - p)) (p + (nm ++ 32 :: attr).length) = write m (p + nm.length) [0] := by
  rw [h.strchr hblank (by simp at hsize; omega), cutBlank, if_pos (by simp)]

/-- A tag cut at its blank: its name, or all of the text where it has none. -/
theorem cutBlank_spec (h : Stands m p (tag ++ 62 :: rest)) (hsize : p + (tag ++ 62 :: rest).length < size)
    (hopen : m (p - 1) = 60) :
    ∃ m', cutBlank m (strchr m 32 p (size - p)) (p + tag.length) = m' ∧
      Stands m' p (if 32 ∈ tag then tag.takeWhile (· ≠ 32) else tag ++ 62 :: rest) ∧
      Stands m' (p + tag.length) (62 :: rest) ∧ (∀ i < p, m' i = m i) ∧
      (m' (p + tag.length - 1) = 47 ↔ tag.getLast? = some 47) := by
  refine ⟨_, rfl, ?_⟩
  by_cases hblank : 32 ∈ tag
  · obtain ⟨nm, attr, rfl, hnm⟩ := List.eq_append_cons_of_mem hblank
    rw [List.append_assoc, List.cons_append] at h hsize
    rw [cutBlank_some h hsize hnm, if_pos hblank]
    have hend : p + (nm ++ 32 :: attr).length = p + nm.length + 1 + attr.length := by
      simp
      omega
    rw [hend, takeWhile_ne_append hnm]
    refine ⟨h.cut.1, h.cut.2.drop, fun i hi => write_of_lt (by omega), ?_⟩
    have hrest : Stands m (p + nm.length + 1) (attr ++ 62 :: rest) := h.drop.tail
    have hmid : write m (p + nm.length) [0] (p + nm.length) = 0 := by simp [write]
    rcases List.eq_nil_or_concat attr with rfl | ⟨attr, x, rfl⟩
    · simp [hmid]
    · have hcut := h.cut.2
      rw [List.concat_eq_append, List.append_assoc] at hcut
      have hx : write m (p + nm.length) [0] (p + nm.length + 1 + attr.length) = x := hcut.drop.1.1
      rw [List.concat_eq_append, List.length_append, List.length_singleton, ← Nat.add_assoc, Nat.add_sub_cancel, hx,
        ← List.cons_append, ← List.append_assoc, List.getLast?_concat, Option.some_inj]
  · rw [cutBlank_none h hsize hblank, if_neg hblank]
    refine ⟨h, h.drop, fun _ _ => rfl, ?_⟩
    rcases List.eq_nil_or_concat tag with rfl | ⟨tag, x, rfl⟩
    · simp [hopen]
    · rw [List.concat_eq_append, List.append_assoc] at h
      have hx : m (p + tag.length) = x := h.drop.1.1
      rw [List.concat_eq_append, List.length_append, List.length_singleton, ← Nat.add_assoc, Nat.add_sub_cancel, hx,
        List.getLast?_concat, Option.some_inj]

/-- A tag cut off: its name and what is behind it. -/
theorem cutTag_spec (h : Stands m p (tag ++ 62 :: rest)) (hsize : p + (tag ++ 62 :: rest).length < size) (hp : 1 ≤ p)
    (hopen : m (p - 1) = 60) :
    ∃ m', write (cutBlank m (strchr m 32 p (size - p)) (p + tag.length)) (p + tag.length) [0] = m' ∧
      Stands m' p (tag.takeWhile (· ≠ 32)) ∧ Stands m' (p + tag.length + 1) rest ∧ (∀ i < p, m' i = m i) ∧
      m' (p + tag.length) = 0 ∧ (m' (p + tag.length - 1) = 47 ↔ tag.getLast? = some 47) := by
  obtain ⟨m', hm', hname, hrest, hframe, hslash⟩ := cutBlank_spec h hsize hopen
  refine ⟨_, rfl, ?_⟩
  rw [hm', write_of_lt (by omega : p + tag.length - 1 < p + tag.length)]
  have htail : Stands (write m' (p + tag.length) [0]) (p + tag.length + 1) rest :=
    hrest.tail.congr fun i h1 _ => write_of_ge (by simp; omega)
  refine ⟨?_, htail, fun i hi => by rw [write_of_lt (by omega), hframe i hi], by simp [write], hslash⟩
  by_cases hblank : 32 ∈ tag
  · obtain ⟨nm, attr, rfl, hnm⟩ := List.eq_append_cons_of_mem hblank
    rw [if_pos hblank, takeWhile_ne_append hnm] at hname
    rw [takeWhile_ne_append hnm]
    exact hname.congr fun i h1 h2 => write_of_lt (by simp; omega)
  · rw [if_neg hblank] at hname
    rw [takeWhile_ne_self hblank]
    exact hname.cut.1

/-- The name behind a namespace. -/
theorem localName_spec (size : ℕ) {nm : Bytes} (h : Stands m p nm) (hsize : p + nm.length < size) :
    ∃ q, (match strchr m 58 p (size - p) with | some colon => colon + 1 | none => p) = q ∧
      Stands m q (localName nm) ∧ p ≤ q ∧ q + (localName nm).length ≤ p + nm.length := by
  refine ⟨_, rfl, ?_⟩
  by_cases hcolon : 58 ∈ nm
  · obtain ⟨ns, l, rfl, hns⟩ := List.eq_append_cons_of_mem hcolon
    have hlocal : localName (ns ++ 58 :: l) = l := by
      rw [localName, if_pos hcolon, dropWhile_ne_append hns, List.tail_cons]
    rw [h.strchr hns (by simp at hsize; omega), hlocal]
    show Stands m (p + ns.length + 1) l ∧ p ≤ p + ns.length + 1 ∧ _
    refine ⟨h.drop.tail, by omega, ?_⟩
    simp
    omega
  · rw [h.strchr_none (by decide) hcolon, localName, if_neg hcolon]
    exact ⟨h, le_rfl, le_rfl⟩

variable {pattern gap text value : Bytes}

theorem strstrAt_bracket (h : Stands m p (gap ++ 60 :: rest)) (hsize : p + (gap ++ 60 :: rest).length < size)
    (hgap : 60 ∉ gap) : strstrAt size (bytes "<") m p = some (p + gap.length) := by
  rw [h.strstrAt hsize]
  exact congrArg _ (strstr_singleton hgap rest)

theorem strstrAt_bracket_none (h : Stands m p text) (hsize : p + text.length < size) (hnot : 60 ∉ text) :
    strstrAt size (bytes "<") m p = none := by
  rw [h.strstrAt hsize]
  exact congrArg _ (strstr_eq_none hnot)

theorem turn_nil (h : Stands m p text) (hsize : p + text.length < size) (hnot : 60 ∉ text) :
    turn size pattern m p = .leave m := by
  rw [turn, strstrAt_bracket_none h hsize hnot]

theorem turn_close (h : Stands m p (gap ++ 60 :: rest)) (hsize : p + (gap ++ 60 :: rest).length < size)
    (hgap : 60 ∉ gap) (hclose : pattern <+: 60 :: rest) : turn size pattern m p = .leave m := by
  have hscan : scan m (p + gap.length) (size - (p + gap.length)) = 60 :: rest :=
    h.drop.scan (by simp at hsize ⊢; omega)
  rw [turn, strstrAt_bracket h hsize hgap]
  simp only [hscan]
  rw [if_pos (List.isPrefixOf_iff_prefix.mpr hclose)]

theorem turn_missing (h : Stands m p (gap ++ 60 :: rest)) (hsize : p + (gap ++ 60 :: rest).length < size)
    (hgap : 60 ∉ gap) (hclose : ¬pattern <+: 60 :: rest) (hnot : 62 ∉ rest) : turn size pattern m p = .missing := by
  have hscan : scan m (p + gap.length) (size - (p + gap.length)) = 60 :: rest :=
    h.drop.scan (by simp at hsize ⊢; omega)
  rw [turn, strstrAt_bracket h hsize hgap]
  simp only [hscan]
  rw [if_neg (mt List.isPrefixOf_iff_prefix.mp hclose), h.drop.tail.strchr_none (by decide) hnot]

/-- A turn that finds a tag, `eb` being its '>'. -/
theorem turn_tag {eb : ℕ} (h : Stands m p (gap ++ 60 :: (tag ++ 62 :: rest)))
    (hsize : p + (gap ++ 60 :: (tag ++ 62 :: rest)).length < size) (hgap : 60 ∉ gap)
    (hclose : ¬pattern <+: 60 :: (tag ++ 62 :: rest)) (htag : 62 ∉ tag) (heb : p + gap.length + 1 + tag.length = eb) :
    ∃ m' name, (∀ i < p, m' i = m i) ∧ Stands m' name (tagName tag) ∧ p ≤ name ∧
      name + (tagName tag).length ≤ eb ∧ m' eb = 0 ∧ Stands m' (eb + 1) rest ∧
      turn size pattern m p =
        if tag.getLast? = some 47 then .arg m' name eb (eb + 1)
        else
          match strchr m' 60 (eb + 1) (size - (eb + 1)) with
          | none => .leave m'
          | some valend => .arg (write m' valend [0]) name (eb + 1) (valend + 1) := by
  have hscan : scan m (p + gap.length) (size - (p + gap.length)) = 60 :: (tag ++ 62 :: rest) :=
    h.drop.scan (by simp at hsize ⊢; omega)
  have htext := h.drop.tail
  have hfits : p + gap.length + 1 + (tag ++ 62 :: rest).length < size := by
    simp at hsize ⊢
    omega
  obtain ⟨m', hm', hname, hrest, hframe, hzero, hslash⟩ := cutTag_spec htext hfits (by omega) h.drop.1.1
  have hlen : (tag.takeWhile (· ≠ 32)).length ≤ tag.length := (List.takeWhile_prefix _).length_le
  obtain ⟨q, hq, hlocal, hle, hqlen⟩ := localName_spec size hname (by simp at hfits; omega)
  rw [heb] at hm' hrest hzero hslash
  refine ⟨m', q, fun i hi => hframe i (by omega), hlocal, by omega, ?_, hzero, hrest, ?_⟩
  · rw [tagName]
    omega
  · rw [turn, strstrAt_bracket h hsize hgap]
    simp only [hscan]
    rw [if_neg (mt List.isPrefixOf_iff_prefix.mp hclose), htext.strchr htag (by simp at hfits; omega), heb]
    simp only [hm', hq, hslash]

/-- A turn from `p` has taken the argument `x` and left `rest`. -/
structure Took (m : Mem) (p : ℕ) (text : Bytes) (x : Bytes × Bytes) (rest : Bytes) (m' : Mem) (name val body : ℕ) :
    Prop where
  frame : ∀ i < p, m' i = m i
  lt_body : p < body
  stands_name : Stands m' name x.1
  name_lt : name + x.1.length < body
  stands_val : Stands m' val x.2
  val_lt : val + x.2.length < body
  stands_rest : Stands m' body rest
  length_rest : body + rest.length = p + text.length

theorem turn_empty (h : Stands m p (gap ++ 60 :: (tag ++ 62 :: rest)))
    (hsize : p + (gap ++ 60 :: (tag ++ 62 :: rest)).length < size) (hgap : 60 ∉ gap)
    (hclose : ¬pattern <+: 60 :: (tag ++ 62 :: rest)) (htag : 62 ∉ tag) (hslash : tag.getLast? = some 47) :
    ∃ m' name val body, turn size pattern m p = .arg m' name val body ∧
      Took m p (gap ++ 60 :: (tag ++ 62 :: rest)) (tagName tag, []) rest m' name val body := by
  obtain ⟨m', name, hframe, hname, hle, hlen, hzero, hrest, hturn⟩ := turn_tag h hsize hgap hclose htag rfl
  rw [if_pos hslash] at hturn
  refine ⟨m', name, _, _, hturn, ⟨hframe, by omega, hname, by simp only; omega, ⟨⟨hzero, trivial⟩, List.not_mem_nil⟩,
    by simp, hrest, ?_⟩⟩
  simp
  omega

theorem turn_unended (h : Stands m p (gap ++ 60 :: (tag ++ 62 :: value)))
    (hsize : p + (gap ++ 60 :: (tag ++ 62 :: value)).length < size) (hgap : 60 ∉ gap)
    (hclose : ¬pattern <+: 60 :: (tag ++ 62 :: value)) (htag : 62 ∉ tag) (hslash : tag.getLast? ≠ some 47)
    (hvalue : 60 ∉ value) : ∃ m', turn size pattern m p = .leave m' ∧ ∀ i < p, m' i = m i := by
  obtain ⟨m', name, hframe, -, -, -, -, hrest, hturn⟩ := turn_tag h hsize hgap hclose htag rfl
  rw [if_neg hslash, hrest.strchr_none (by decide) hvalue] at hturn
  exact ⟨m', hturn, hframe⟩

theorem turn_value (h : Stands m p (gap ++ 60 :: (tag ++ 62 :: (value ++ 60 :: rest))))
    (hsize : p + (gap ++ 60 :: (tag ++ 62 :: (value ++ 60 :: rest))).length < size) (hgap : 60 ∉ gap)
    (hclose : ¬pattern <+: 60 :: (tag ++ 62 :: (value ++ 60 :: rest))) (htag : 62 ∉ tag)
    (hslash : tag.getLast? ≠ some 47) (hvalue : 60 ∉ value) :
    ∃ m' name val body, turn size pattern m p = .arg m' name val body ∧
      Took m p (gap ++ 60 :: (tag ++ 62 :: (value ++ 60 :: rest))) (tagName tag, value) rest m' name val body := by
  obtain ⟨m', name, hframe, hname, hle, hlen, hzero, hrest, hturn⟩ := turn_tag h hsize hgap hclose htag rfl
  rw [if_neg hslash, hrest.strchr hvalue (by simp at hsize; omega)] at hturn
  refine ⟨_, name, _, _, hturn, ⟨fun i hi => ?_, by omega, ?_, by simp only; omega, hrest.cut.1, by simp,
    hrest.cut.2, ?_⟩⟩
  · rw [write_of_lt (by omega), hframe i hi]
  · exact hname.congr fun i h1 h2 => write_of_lt (by omega)
  · simp
    omega

end Turn

/-! ### The loop -/

/-- The positions stand for the arguments, in front of `b`. -/
def Stored (m : Mem) (b : ℕ) (args : List (ℕ × ℕ)) (l : List (Bytes × Bytes)) : Prop :=
  List.Forall₂ (fun a x => (Stands m a.1 x.1 ∧ a.1 + x.1.length < b) ∧ Stands m a.2 x.2 ∧ a.2 + x.2.length < b) args l

theorem Stored.nil {m : Mem} {b : ℕ} : Stored m b [] [] := List.Forall₂.nil

theorem Stored.mono {m m' : Mem} {b b' : ℕ} {args : List (ℕ × ℕ)} {l : List (Bytes × Bytes)} (h : Stored m b args l)
    (hb : b ≤ b') (hframe : ∀ i < b, m' i = m i) : Stored m' b' args l := by
  apply List.Forall₂.imp _ h
  rintro a x ⟨⟨h1, hlt1⟩, h2, hlt2⟩
  exact ⟨⟨h1.congr fun i _ hi => hframe i (by omega), by omega⟩, h2.congr fun i _ hi => hframe i (by omega), by omega⟩

theorem Stored.snoc {m : Mem} {b name val : ℕ} {args : List (ℕ × ℕ)} {l : List (Bytes × Bytes)} {x : Bytes × Bytes}
    (h : Stored m b args l) (h1 : Stands m name x.1) (hlt1 : name + x.1.length < b) (h2 : Stands m val x.2)
    (hlt2 : val + x.2.length < b) : Stored m b (args ++ [(name, val)]) (l ++ [x]) :=
  List.rel_append h (.cons ⟨⟨h1, hlt1⟩, h2, hlt2⟩ .nil)

theorem Stored.argsIn {m : Mem} {size b : ℕ} {args : List (ℕ × ℕ)} {l : List (Bytes × Bytes)} (h : Stored m b args l)
    (hb : b ≤ size) : argsIn size m args = l := by
  induction h with
  | nil => rfl
  | cons hx _ ih =>
    obtain ⟨⟨h1, hlt1⟩, h2, hlt2⟩ := hx
    rw [Soap.argsIn, List.map_cons, h1.scan (by omega), h2.scan (by omega)]
    exact congrArg _ ih

theorem nul_iff {m : Mem} {p : ℕ} {l : Bytes} (h : Stands m p l) : m p = 0 ↔ l = [] := by
  cases l with
  | nil => exact ⟨fun _ => rfl, fun _ => h.1.1⟩
  | cons x l =>
    have hx : m p = x := h.1.1
    refine ⟨fun h0 => absurd ?_ h.2, nofun⟩
    rw [← hx, h0]
    exact List.mem_cons_self

variable {size : ℕ} {close : Bytes}

/-- The loop goes on behind an argument, where there is more. -/
theorem soapLoop_arg {m m' : Mem} {p name val body fuel : ℕ} {rest : Bytes} (args : List (ℕ × ℕ))
    (hturn : turn size close m p = .arg m' name val body) (h : Stands m' body rest) :
    soapLoop size close (fuel + 1) m p args =
      if rest = [] then .done m' (args ++ [(name, val)]) else soapLoop size close fuel m' body (args ++ [(name, val)]) := by
  rw [soapLoop, hturn]
  simp only [nul_iff h]

/-- The loop stores `l` from the text, wherever it stands. -/
def Collects (size : ℕ) (close text : Bytes) (l : List (Bytes × Bytes)) : Prop :=
  ∀ {fuel p : ℕ} {m : Mem} {args : List (ℕ × ℕ)} {before : List (Bytes × Bytes)}, Stands m p text →
    p + text.length < size → text.length < fuel → Stored m p args before →
    ∃ m' args', soapLoop size close fuel m p args = .done m' args' ∧ argsIn size m' args' = before ++ l

theorem collects_leave {text : Bytes}
    (hturn : ∀ {p : ℕ} {m : Mem}, Stands m p text → p + text.length < size →
      ∃ m', turn size close m p = .leave m' ∧ ∀ i < p, m' i = m i) : Collects size close text [] := by
  intro fuel p m args before h hsize hfuel hstored
  obtain ⟨fuel, rfl⟩ := Nat.exists_eq_add_one_of_ne_zero (Nat.ne_zero_of_lt hfuel)
  obtain ⟨m', hleave, hframe⟩ := hturn h hsize
  refine ⟨m', args, by rw [soapLoop, hleave], ?_⟩
  rw [List.append_nil]
  exact (hstored.mono le_rfl hframe).argsIn (by omega)

theorem collects_arg {text rest : Bytes} {x : Bytes × Bytes} {l : List (Bytes × Bytes)}
    (hrest : Collects size close rest l) (hnil : rest = [] → l = [])
    (hturn : ∀ {p : ℕ} {m : Mem}, Stands m p text → p + text.length < size →
      ∃ m' name val body, turn size close m p = .arg m' name val body ∧ Took m p text x rest m' name val body) :
    Collects size close text (x :: l) := by
  intro fuel p m args before h hsize hfuel hstored
  obtain ⟨fuel, rfl⟩ := Nat.exists_eq_add_one_of_ne_zero (Nat.ne_zero_of_lt hfuel)
  obtain ⟨m', name, val, body, harg, took⟩ := hturn h hsize
  have hlen := took.length_rest
  have hlt := took.lt_body
  have hsnoc := (hstored.mono (Nat.le_of_lt hlt) took.frame).snoc took.stands_name took.name_lt took.stands_val
    took.val_lt
  rw [soapLoop_arg args harg took.stands_rest]
  split_ifs with hend
  · rw [hnil hend]
    exact ⟨m', _, rfl, hsnoc.argsIn (by omega)⟩
  · rw [List.append_cons before x l]
    apply hrest took.stands_rest _ _ hsnoc <;> omega

theorem Elements.eq_nil {text : Bytes} {l : List (Bytes × Bytes)} (h : Elements close text l) (hnot : 60 ∉ text) :
    l = [] := by
  cases h with
  | nil _ => rfl
  | close _ _ => rfl
  | unended _ _ _ _ _ => rfl
  | empty _ _ _ _ _ => simp at hnot
  | value _ _ _ _ _ _ => simp at hnot

/-- What the loop stores. -/
theorem soapLoop_spec {text : Bytes} {l : List (Bytes × Bytes)} (h : Elements close text l) :
    Collects size close text l := by
  induction h with
  | nil hnot => exact collects_leave fun h hsize => ⟨_, turn_nil h hsize hnot, fun _ _ => rfl⟩
  | close hgap hclose => exact collects_leave fun h hsize => ⟨_, turn_close h hsize hgap hclose, fun _ _ => rfl⟩
  | unended hgap hclose htag hslash hvalue =>
    exact collects_leave fun h hsize => turn_unended h hsize hgap hclose htag hslash hvalue
  | empty hgap hclose htag hslash hrest ih =>
    apply collects_arg ih
    · rintro rfl
      exact hrest.eq_nil List.not_mem_nil
    · exact fun h hsize => turn_empty h hsize hgap hclose htag hslash
  | value hgap hclose htag hslash hvalue hrest ih =>
    apply collects_arg ih
    · rintro rfl
      exact hrest.eq_nil List.not_mem_nil
    · exact fun h hsize => turn_value h hsize hgap hclose htag hslash hvalue

/-- The loop on a text that cannot be read. -/
theorem soapLoop_missing : ∀ {text : Bytes} {fuel p : ℕ} {m : Mem} (args : List (ℕ × ℕ)),
    (∀ l, ¬Elements close text l) → Stands m p text → p + text.length < size → text.length < fuel →
    soapLoop size close fuel m p args = .missing := by
  intro text fuel p m args hnot h hsize hfuel
  obtain ⟨fuel, rfl⟩ := Nat.exists_eq_add_one_of_ne_zero (Nat.ne_zero_of_lt hfuel)
  by_cases hopen : 60 ∈ text
  · obtain ⟨gap, after, rfl, hgap⟩ := List.eq_append_cons_of_mem hopen
    have hclose : ¬close <+: 60 :: after := fun hclose => hnot _ (.close hgap hclose)
    by_cases hend : 62 ∈ after
    · obtain ⟨tag, rest, rfl, htag⟩ := List.eq_append_cons_of_mem hend
      by_cases hslash : tag.getLast? = some 47
      · have hrest : ∀ l, ¬Elements close rest l := fun l hl => hnot _ (.empty hgap hclose htag hslash hl)
        obtain ⟨m', name, val, body, harg, took⟩ := turn_empty h hsize hgap hclose htag hslash
        have hlen := took.length_rest
        have hlt := took.lt_body
        rw [soapLoop_arg args harg took.stands_rest, if_neg]
        · exact soapLoop_missing _ hrest took.stands_rest (by omega) (by omega)
        · rintro rfl
          exact hrest _ (.nil List.not_mem_nil)
      · by_cases hvalue : 60 ∈ rest
        · obtain ⟨value, rest, rfl, hval⟩ := List.eq_append_cons_of_mem hvalue
          have hrest : ∀ l, ¬Elements close rest l := fun l hl => hnot _ (.value hgap hclose htag hslash hval hl)
          obtain ⟨m', name, val, body, harg, took⟩ := turn_value h hsize hgap hclose htag hslash hval
          have hlen := took.length_rest
          have hlt := took.lt_body
          rw [soapLoop_arg args harg took.stands_rest, if_neg]
          · exact soapLoop_missing _ hrest took.stands_rest (by omega) (by omega)
          · rintro rfl
            exact hrest _ (.nil List.not_mem_nil)
        · exact absurd (.unended hgap hclose htag hslash hvalue) (hnot [])
    · rw [soapLoop, turn_missing h hsize hgap hclose hend]
  · exact absurd (.nil hopen) (hnot [])
termination_by text => text.length

/-! ### The whole body -/

/-- What is behind the '<' of the action. -/
def actionAt (text : Bytes) : Option Bytes :=
  (strstr (bytes ":Body>") text).bind fun u =>
    (strstr (bytes "<") (text.drop (u + 1))).map fun k => text.drop (u + 1 + (k + 1))

/-- What ends the arguments, where `act` begins with the tag of the action. -/
def closing (act tag : Bytes) : Bytes :=
  (bytes "</" ++ if 32 ∈ tag then tag.takeWhile (· ≠ 32) else act).take 79

section Body

variable {m : Mem} {body p fuel : ℕ} {text act tag rest : Bytes}

theorem stands_drop {k : ℕ} (h : Stands m p text) (hk : k ≤ text.length) : Stands m (p + k) (text.drop k) := by
  have hlen : (text.take k).length = k := by
    rw [List.length_take, Nat.min_eq_left hk]
  rw [← List.take_append_drop k text] at h
  have hdrop := h.drop
  rwa [hlen] at hdrop

theorem length_of_strstr {pat : Bytes} {k : ℕ} (hpat : pat ≠ []) (h : strstr pat text = some k) : k < text.length := by
  by_contra hlt
  have hpre := strstr_spec h
  rw [List.drop_of_length_le (Nat.not_lt.mp hlt), List.prefix_nil] at hpre
  exact hpat hpre

theorem readBody_none (h : Stands m body text) (hsize : body + text.length < size) (hact : actionAt text = none) :
    readBody size fuel m body = .done m [] := by
  rw [readBody, h.strstrAt hsize]
  cases hu : strstr (bytes ":Body>") text with
  | none => rfl
  | some u =>
    have hlt := length_of_strstr (by decide) hu
    have hdrop := stands_drop (k := u + 1) h hlt
    rw [actionAt, hu] at hact
    have hnone : strstr (bytes "<") (text.drop (u + 1)) = none := by simpa using hact
    simp only [Option.map_some]
    rw [Nat.add_assoc, hdrop.strstrAt (by rw [List.length_drop]; omega), hnone]
    rfl

theorem readBody_some (fuel : ℕ) (h : Stands m body text) (hsize : body + text.length < size)
    (hact : actionAt text = some act) :
    ∃ p, Stands m p act ∧ m (p - 1) = 60 ∧ body ≤ p ∧ p + act.length = body + text.length ∧
      readBody size fuel m body = readAction size fuel m p := by
  obtain ⟨u, hu, hmap⟩ := Option.bind_eq_some_iff.mp hact
  obtain ⟨k, hk, rfl⟩ := Option.map_eq_some_iff.mp hmap
  have hlt := length_of_strstr (by decide) hu
  have hdrop := stands_drop (k := u + 1) h hlt
  have hlt' := length_of_strstr (by decide) hk
  rw [List.length_drop] at hlt'
  refine ⟨body + (u + 1) + (k + 1), ?_, ?_, by omega, ?_, ?_⟩
  · rw [Nat.add_assoc]
    exact stands_drop h (by omega)
  · have hbracket := strstr_spec hk
    have hat := stands_drop (k := k) hdrop (by rw [List.length_drop]; omega)
    obtain ⟨t, ht⟩ := hbracket
    rw [← ht] at hat
    exact hat.1.1
  · rw [List.length_drop]
    omega
  · rw [readBody, h.strstrAt hsize, hu]
    simp only [Option.map_some]
    rw [Nat.add_assoc body, hdrop.strstrAt (by rw [List.length_drop]; omega), hk]
    rfl

theorem readAction_none (h : Stands m p act) (hnot : 32 ∉ act ∨ 62 ∉ act) :
    readAction size fuel m p = .done m [] := by
  rw [readAction]
  rcases hnot with hblank | hend
  · rw [h.strchr_none (by decide) hblank]
  · rw [h.strchr_none (by decide) hend]
    split <;> simp_all

theorem readAction_tag (fuel : ℕ) (h : Stands m p (tag ++ 62 :: rest)) (hsize : p + (tag ++ 62 :: rest).length < size)
    (hopen : m (p - 1) = 60) (hblank : 32 ∈ tag ++ 62 :: rest) (htag : 62 ∉ tag) :
    ∃ m', readAction size fuel m p = (if tag.getLast? = some 47 then .done m' []
      else soapLoop size (closing (tag ++ 62 :: rest) tag) fuel m' (p + tag.length + 1) []) ∧
      Stands m' (p + tag.length + 1) rest := by
  obtain ⟨m', hm', hname, hrest, -, hslash⟩ := cutBlank_spec h hsize hopen
  refine ⟨m', ?_, hrest.tail⟩
  have hsp : ∃ sp, strchr m 32 p (size - p) = some sp := by
    obtain ⟨a, b, hab, ha⟩ := List.eq_append_cons_of_mem hblank
    rw [hab] at h hsize
    exact ⟨_, h.strchr ha (by simp at hsize; omega)⟩
  obtain ⟨sp, hsp⟩ := hsp
  have hscan : scan m' p (size - p) = if 32 ∈ tag then tag.takeWhile (· ≠ 32) else tag ++ 62 :: rest := by
    apply hname.scan
    split_ifs
    · have hle := (List.takeWhile_prefix (p := fun c : UInt8 => decide (c ≠ 32)) (l := tag)).length_le
      simp at hsize
      omega
    · omega
  rw [hsp] at hm'
  rw [readAction, hsp, h.strchr htag (by simp at hsize; omega)]
  simp only [hm', hscan, show p + tag.length + 1 - 2 = p + tag.length - 1 by omega, hslash]
  rfl

/-! ### What goes wrong -/

/-- The loop has ended, has stored no more than `args` holds, and has used no '>' that it had not found. -/
def Outcome.Safe : Outcome → Prop
  | running | missing => False
  | done _ args => args.length ≤ 10

def Action.Safe : Action → Prop
  | error => True
  | invoke _ args => args.Safe

/-- The action has no more than ten arguments, and none of their tags is without an end. -/
def Fits (text : Bytes) : Prop :=
  ∀ act ∈ actionAt text, 32 ∈ act → ∀ tag rest, act = tag ++ 62 :: rest → 62 ∉ tag → tag.getLast? ≠ some 47 →
    ∃ args, Elements (closing act tag) rest args ∧ args.length ≤ 10

theorem soapLoop_safe_iff (h : Stands m p text) (hsize : p + text.length < size) (hfuel : text.length < fuel) :
    (soapLoop size close fuel m p []).Safe ↔ ∃ args, Elements close text args ∧ args.length ≤ 10 := by
  by_cases hread : ∃ l, Elements close text l
  · obtain ⟨l, hl⟩ := hread
    obtain ⟨m', args, hdone, hargs⟩ := soapLoop_spec hl h hsize hfuel Stored.nil
    have hlen : args.length = l.length := by
      rw [← List.nil_append l, ← hargs, argsIn, List.length_map]
    rw [hdone]
    constructor
    · intro hsafe
      exact ⟨l, hl, hlen ▸ hsafe⟩
    · rintro ⟨l', hl', hle⟩
      obtain ⟨m'', args', hdone', hargs'⟩ := soapLoop_spec hl' h hsize hfuel Stored.nil
      rw [hdone] at hdone'
      cases hdone'
      show args.length ≤ 10
      rwa [← List.nil_append l', ← hargs', argsIn, List.length_map] at hle
  · rw [soapLoop_missing [] (not_exists.mp hread) h hsize hfuel]
    exact ⟨False.elim, fun ⟨l, hl, _⟩ => hread ⟨l, hl⟩⟩

theorem fits_iff (hact : actionAt text = some act) (hblank : 32 ∈ act) (hsplit : act = tag ++ 62 :: rest)
    (htag : 62 ∉ tag) : Fits text ↔ (tag.getLast? ≠ some 47 →
      ∃ args, Elements (closing act tag) rest args ∧ args.length ≤ 10) := by
  constructor
  · intro h hslash
    exact h act hact hblank tag rest hsplit htag hslash
  · rintro h act' hact' - tag' rest' hsplit' htag' hslash
    rw [hact] at hact'
    cases hact'
    rw [hsplit] at hsplit'
    obtain ⟨rfl, rfl⟩ := append_cons_inj htag htag' hsplit'
    exact h hslash

theorem readBody_safe_iff (h : Stands m body text) (hsize : body + text.length < size) (hfuel : text.length < fuel) :
    (readBody size fuel m body).Safe ↔ Fits text := by
  have hdone : ∀ m' : Mem, (Outcome.done m' []).Safe := fun m' => Nat.zero_le 10
  cases hact : actionAt text with
  | none =>
    rw [readBody_none h hsize hact]
    refine ⟨fun _ act hmem => ?_, fun _ => hdone m⟩
    rw [hact] at hmem
    exact absurd hmem (Option.not_mem_none act)
  | some act =>
    obtain ⟨p, hstands, hopen, hle, hlen, hread⟩ := readBody_some fuel h hsize hact
    rw [hread]
    by_cases hblank : 32 ∈ act
    · by_cases hend : 62 ∈ act
      · obtain ⟨tag, rest, rfl, htag⟩ := List.eq_append_cons_of_mem hend
        have hin : p + (tag ++ 62 :: rest).length < size := by omega
        obtain ⟨m', htag', hrest⟩ := readAction_tag fuel hstands hin hopen hblank htag
        rw [htag', fits_iff hact hblank rfl htag]
        split_ifs with hslash
        · exact ⟨fun _ hne => absurd hslash hne, fun _ => hdone m'⟩
        · rw [List.length_append, List.length_cons] at hlen
          refine (soapLoop_safe_iff hrest ?_ ?_).trans ⟨fun h _ => h, fun h => h hslash⟩
          · omega
          · omega
      · rw [readAction_none hstands (.inr hend)]
        refine ⟨fun _ act' hact' _ tag rest hsplit => ?_, fun _ => hdone m⟩
        rw [hact] at hact'
        cases hact'
        exact absurd (hsplit ▸ by simp) hend
    · rw [readAction_none hstands (.inl hblank)]
      refine ⟨fun _ act' hact' hblank' => ?_, fun _ => hdone m⟩
      rw [hact] at hact'
      cases hact'
      exact absurd hblank' hblank

/-- For which headers and bodies nothing goes wrong. -/
theorem soapAction_safe_iff (soapaction : Option Bytes) (h : Stands m body text) (hsize : body + text.length < size)
    (hfuel : text.length < fuel) :
    (soapAction size fuel soapaction m body).Safe ↔ ((∃ s ∈ soapaction, 35 ∈ s) → Fits text) := by
  cases soapaction with
  | none => exact ⟨fun _ ⟨s, hs, _⟩ => absurd hs (Option.not_mem_none s), fun _ => trivial⟩
  | some s =>
    rw [soapAction]
    by_cases hmem : 35 ∈ s
    · obtain ⟨a, b, rfl, ha⟩ := List.eq_append_cons_of_mem hmem
      rw [strpbrk_singleton ha]
      calc (readBody size fuel m body).Safe ↔ Fits text := readBody_safe_iff h hsize hfuel
        _ ↔ _ := ⟨fun hfits _ => hfits, fun hfits => hfits ⟨_, rfl, hmem⟩⟩
    · simp only [strpbrk_singleton_none hmem]
      refine ⟨fun _ ⟨s', hs', hmem'⟩ => ?_, fun _ => trivial⟩
      cases hs'
      exact absurd hmem' hmem

/-- `<s:Body><a b>` with one argument. -/
theorem soapAction_safe_one :
    (soapAction 100 40 (some (bytes "urn#a")) (write (fun _ => 0) 0 (bytes "<s:Body><a b><x>1</x></a>" ++ [0])) 0).Safe ↔
      ((∃ s ∈ some (bytes "urn#a"), 35 ∈ s) → Fits (bytes "<s:Body><a b><x>1</x></a>")) :=
  soapAction_safe_iff _ ⟨holds_write_same _ _ _, by decide⟩ (by decide) (by decide)

instance : ∀ o : Outcome, Decidable o.Safe
  | .running | .missing => isFalse id
  | .done _ args => Nat.decLe args.length 10

instance : ∀ a : Action, Decidable a.Safe
  | .error => isTrue trivial
  | .invoke _ o => inferInstanceAs (Decidable o.Safe)

/-- A tag without an end, and eleven arguments. -/
theorem soapAction_unsafe :
    ¬(soapAction 100 40 (some (bytes "#")) (write (fun _ => 0) 0 (bytes "<s:Body><a b><c" ++ [0])) 0).Safe ∧
      ¬(soapAction 100 99 (some (bytes "#"))
        (write (fun _ => 0) 0 (bytes "<s:Body><a b>" ++ (List.replicate 11 (bytes "<x></x>")).flatten ++ [0])) 0).Safe :=
  ⟨by decide +kernel, by decide +kernel⟩

end Body

end Soap
end Upnp
end Router
