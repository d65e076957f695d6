/-
# Requests whose arguments are read

`upnp/upnp/soap.c`: a `Request` is a SOAP body with the element of an action and up to ten arguments in it. Its
arguments are passed on as they are written only under a condition, `Request.Extracted`. `soap_action` searches for the
end of the name of the action, a ' ', in all of the text behind it. Where the tag of the action has no ' ',

* it does nothing when there is none behind it either;
* otherwise it takes all of that text for the name. The closing tag is then another argument, unless the rest of the
  text has no '<'.

`soapAction_args_iff` says that these are all the cases.
-/
import RouterFirmware.Upnp.SoapAction

namespace Router
namespace Upnp
namespace Soap

open CMem CText

/-! ### Requests -/

/-- Bytes that are in no name: NUL, white space, '/', ':', and the brackets. -/
def delimiters : Bytes := [0, 9, 10, 13, 32, 47, 58, 60, 62]

/-- A name, which may have a namespace in front. -/
structure QName where
  ns : Option Bytes
  name : Bytes
  name_ne : name ≠ []
  ns_ok : ∀ ns' ∈ ns, ∀ c ∈ ns', c ∉ delimiters
  name_ok : ∀ c ∈ name, c ∉ delimiters

def QName.text (q : QName) : Bytes :=
  match q.ns with
  | some ns => ns ++ 58 :: q.name
  | none => q.name

/-- What is in a start tag behind the name, which does not end it as that of an empty element. -/
structure Attributes where
  text : Bytes
  text_ok : (0 : UInt8) ∉ text ∧ 60 ∉ text ∧ 62 ∉ text
  last_ok : text.getLast? ≠ some 47

/-- An argument element, and what stands in front of it. -/
structure Argument where
  lead : Bytes
  qname : QName
  attributes : Attributes
  value : Bytes
  lead_ok : (0 : UInt8) ∉ lead ∧ 60 ∉ lead
  blank : attributes.text = [] ∨ attributes.text.head? = some 32
  value_ok : (0 : UInt8) ∉ value ∧ 60 ∉ value

def Argument.tag (a : Argument) : Bytes := a.qname.text ++ a.attributes.text

/-- `<name>value</name>`, or `<ns:name attr>value</ns:name>`. -/
def Argument.text (a : Argument) : Bytes :=
  a.lead ++ 60 :: (a.tag ++ 62 :: (a.value ++ 60 :: (47 :: a.qname.text ++ [62])))

/-- A body: `head` ends before ":Body>", `lead` stands in front of the element of the action and `gap` in front of its
closing tag, which may have white space at its end. -/
structure Request where
  head : Bytes
  lead : Bytes
  action : QName
  attributes : Attributes
  args : List Argument
  gap : Bytes
  space : Bytes
  rest : Bytes
  head_ok : (0 : UInt8) ∉ head ∧ ¬bytes ":Body>" <:+: head
  lead_ok : (0 : UInt8) ∉ lead ∧ 60 ∉ lead
  white : attributes.text = [] ∨ ∃ c ∈ attributes.text.head?, isSpace c
  length_args : args.length ≤ 10
  gap_ok : (0 : UInt8) ∉ gap ∧ 60 ∉ gap
  space_ok : ∀ c ∈ space, isSpace c
  rest_ok : (0 : UInt8) ∉ rest

variable (r : Request)

/-- The tag of the action. -/
def Request.tag : Bytes := r.action.text ++ r.attributes.text

/-- The closing tag of the action, without its brackets. -/
def Request.endTag : Bytes := 47 :: (r.action.text ++ r.space)

/-- What is behind the tag of the action. -/
def Request.content : Bytes := r.args.flatMap Argument.text ++ (r.gap ++ 60 :: (r.endTag ++ 62 :: r.rest))

def Request.text : Bytes :=
  r.head ++ (bytes ":Body>" ++ (r.lead ++ 60 :: (r.tag ++ 62 :: r.content)))

/-- The arguments: the local names and the values. -/
def Request.arguments : List (Bytes × Bytes) := r.args.map fun a => (a.qname.name, a.value)

/-- When they are read as they are written. -/
def Request.Extracted : Prop :=
  if 32 ∈ r.tag ++ 62 :: r.content then
    closing (r.tag ++ 62 :: r.content) r.tag <+: 60 :: (r.endTag ++ 62 :: r.rest) ∨ 60 ∉ r.rest
  else r.args = []

/-- The strings that are passed on. -/
def Action.args (size : ℕ) : Action → Option (List (Bytes × Bytes))
  | invoke _ (.done m args) => some (argsIn size m args)
  | _ => none

/-! ### Reading element by element -/

section Elements

variable {close gap tag value rest text : Bytes} {l : List (Bytes × Bytes)}

/-- A start tag: there is no '<' behind it, or it is that of an argument. -/
theorem elements_tag (hgap : 60 ∉ gap) (hclose : ¬close <+: 60 :: (tag ++ 62 :: rest)) (htag : 62 ∉ tag)
    (hslash : tag.getLast? ≠ some 47) (h : Elements close (gap ++ 60 :: (tag ++ 62 :: rest)) l) :
    60 ∉ rest ∧ l = [] ∨ ∃ value after l', 60 ∉ value ∧ rest = value ++ 60 :: after ∧ l = (tagName tag, value) :: l' ∧
      Elements close after l' := by
  generalize heq : gap ++ 60 :: (tag ++ 62 :: rest) = text at h
  cases h with
  | nil hnot =>
    subst heq
    exact absurd (List.mem_append_right _ List.mem_cons_self) hnot
  | close hgap' hclose' =>
    obtain ⟨-, rfl⟩ := append_cons_inj hgap hgap' heq
    exact absurd hclose' hclose
  | unended hgap' _ htag' _ hvalue =>
    obtain ⟨-, heq'⟩ := append_cons_inj hgap hgap' heq
    obtain ⟨-, rfl⟩ := append_cons_inj htag htag' heq'
    exact .inl ⟨hvalue, rfl⟩
  | empty hgap' _ htag' hslash' _ =>
    obtain ⟨-, heq'⟩ := append_cons_inj hgap hgap' heq
    obtain ⟨rfl, -⟩ := append_cons_inj htag htag' heq'
    exact absurd hslash' hslash
  | value hgap' _ htag' _ hvalue hrest =>
    obtain ⟨-, heq'⟩ := append_cons_inj hgap hgap' heq
    obtain ⟨rfl, rfl⟩ := append_cons_inj htag htag' heq'
    exact .inr ⟨_, _, _, hvalue, rfl, rfl, hrest⟩

theorem elements_value_iff (hgap : 60 ∉ gap) (hclose : ¬close <+: 60 :: (tag ++ 62 :: (value ++ 60 :: rest)))
    (htag : 62 ∉ tag) (hslash : tag.getLast? ≠ some 47) (hvalue : 60 ∉ value) :
    Elements close (gap ++ 60 :: (tag ++ 62 :: (value ++ 60 :: rest))) l ↔
      ∃ l', l = (tagName tag, value) :: l' ∧ Elements close rest l' := by
  constructor
  · intro h
    rcases elements_tag hgap hclose htag hslash h with ⟨hnot, -⟩ | ⟨value', after, l', hvalue', heq, rfl, hrest⟩
    · exact absurd (List.mem_append_right _ List.mem_cons_self) hnot
    · obtain ⟨rfl, rfl⟩ := append_cons_inj hvalue hvalue' heq
      exact ⟨l', rfl, hrest⟩
  · rintro ⟨l', rfl, hrest⟩
    exact .value hgap hclose htag hslash hvalue hrest

/-- What stands in front of the first '<' does not matter. -/
theorem elements_gap {gap' : Bytes} (hgap : 60 ∉ gap) (hgap' : 60 ∉ gap') (h : Elements close (gap ++ 60 :: rest) l) :
    Elements close (gap' ++ 60 :: rest) l := by
  generalize heq : gap ++ 60 :: rest = text at h
  cases h with
  | nil hnot =>
    subst heq
    exact absurd (List.mem_append_right _ List.mem_cons_self) hnot
  | close h0 hclose =>
    obtain ⟨-, rfl⟩ := append_cons_inj hgap h0 heq
    exact .close hgap' hclose
  | unended h0 hclose htag hslash hvalue =>
    obtain ⟨-, rfl⟩ := append_cons_inj hgap h0 heq
    exact .unended hgap' hclose htag hslash hvalue
  | empty h0 hclose htag hslash hrest =>
    obtain ⟨-, rfl⟩ := append_cons_inj hgap h0 heq
    exact .empty hgap' hclose htag hslash hrest
  | value h0 hclose htag hslash hvalue hrest =>
    obtain ⟨-, rfl⟩ := append_cons_inj hgap h0 heq
    exact .value hgap' hclose htag hslash hvalue hrest

/-- The end of the action does not stand where a name begins. -/
theorem not_close {end' : Bytes} (hhead : tag.head? ≠ some 47) : ¬60 :: 47 :: end' <+: 60 :: (tag ++ 62 :: rest) := by
  intro h
  have h' := (List.cons_prefix_cons.mp h).2
  cases tag with
  | nil => exact absurd (List.cons_prefix_cons.mp h').1 (by decide)
  | cons c tag => exact hhead (congrArg some (List.cons_prefix_cons.mp h').1.symm)

end Elements

/-! ### What is in a request -/

theorem QName.text_ok (q : QName) {c : UInt8} (hc : c ∈ q.text) (hcolon : c ≠ 58) : c ∉ delimiters := by
  cases hns : q.ns with
  | none =>
    rw [QName.text, hns] at hc
    exact q.name_ok c hc
  | some ns =>
    rw [QName.text, hns] at hc
    rcases List.mem_append.mp hc with hc | hc
    · exact q.ns_ok ns hns c hc
    · exact q.name_ok c ((List.mem_cons.mp hc).resolve_left hcolon)

theorem QName.text_ne (q : QName) : q.text ≠ [] := by
  cases hns : q.ns with
  | none =>
    rw [QName.text, hns]
    exact q.name_ne
  | some ns =>
    rw [QName.text, hns]
    exact List.append_ne_nil_of_right_ne_nil _ (List.cons_ne_nil _ _)

/-- A delimiter other than ':' is in no name. -/
theorem QName.notMem (q : QName) {c : UInt8} (hc : c ∈ delimiters) (hcolon : c ≠ 58) : c ∉ q.text :=
  fun hmem => q.text_ok hmem hcolon hc

theorem QName.localName_text (q : QName) : localName q.text = q.name := by
  have hname : 58 ∉ q.name := fun hmem => q.name_ok 58 hmem (by decide)
  cases hns : q.ns with
  | none => rw [QName.text, hns, localName, if_neg hname]
  | some ns =>
    have hnot : 58 ∉ ns := fun hmem => q.ns_ok ns hns 58 hmem (by decide)
    rw [QName.text, hns, localName, if_pos (List.mem_append_right _ List.mem_cons_self), dropWhile_ne_append hnot,
      List.tail_cons]

/-- The name of an argument ends at the blank. -/
theorem Argument.tagName_tag (a : Argument) : tagName a.tag = a.qname.name := by
  have hblank : (32 : UInt8) ∉ a.qname.text := a.qname.notMem (by decide) (by decide)
  have hwhile : a.tag.takeWhile (· ≠ 32) = a.qname.text := by
    rcases a.blank with hnil | hhead
    · rw [Argument.tag, hnil, List.append_nil, takeWhile_ne_self hblank]
    · obtain ⟨attr, hattr⟩ := List.head?_eq_some_iff.mp hhead
      rw [Argument.tag, hattr, takeWhile_ne_append hblank]
  rw [tagName, hwhile, a.qname.localName_text]

/-- A tag of a name and attributes: it is a start tag, and not that of an empty element. -/
theorem tag_ok (q : QName) (a : Attributes) :
    62 ∉ q.text ++ a.text ∧ (q.text ++ a.text).getLast? ≠ some 47 ∧ (q.text ++ a.text).head? ≠ some 47 := by
  refine ⟨?_, ?_, ?_⟩
  · rw [List.mem_append, not_or]
    exact ⟨q.notMem (by decide) (by decide), a.text_ok.2.2⟩
  · rw [List.getLast?_append]
    intro h
    rcases Option.or_eq_some_iff.mp h with h | ⟨-, h⟩
    · exact a.last_ok h
    · exact q.notMem (by decide) (by decide) (List.mem_of_getLast? h)
  · intro h
    rw [List.head?_append_of_ne_nil _ q.text_ne] at h
    exact q.notMem (by decide) (by decide) (List.mem_of_head? h)

/-! ### The arguments, and the end of the action -/

section Read

variable {close gap rest : Bytes}

/-- Arguments are read as they are written. -/
theorem elements_args {end' : Bytes} (hgap : 60 ∉ gap) : ∀ {args : List Argument} {lead : Bytes}
    {l : List (Bytes × Bytes)}, 60 ∉ lead →
    (Elements (60 :: 47 :: end') (lead ++ (args.flatMap Argument.text ++ (gap ++ 60 :: rest))) l ↔
      ∃ l', l = args.map (fun a => (a.qname.name, a.value)) ++ l' ∧
        Elements (60 :: 47 :: end') (gap ++ 60 :: rest) l')
  | [], lead, l, hlead => by
    have hboth : 60 ∉ lead ++ gap := by
      rw [List.mem_append, not_or]
      exact ⟨hlead, hgap⟩
    simp only [List.flatMap_nil, List.nil_append, List.map_nil, ← List.append_assoc lead gap]
    constructor
    · exact fun h => ⟨l, rfl, elements_gap hboth hgap h⟩
    · rintro ⟨l', rfl, h⟩
      exact elements_gap hgap hboth h
  | a :: args, lead, l, hlead => by
    obtain ⟨htag, hslash, hhead⟩ : 62 ∉ a.tag ∧ a.tag.getLast? ≠ some 47 ∧ a.tag.head? ≠ some 47 :=
      tag_ok a.qname a.attributes
    have hboth : 60 ∉ lead ++ a.lead := by
      rw [List.mem_append, not_or]
      exact ⟨hlead, a.lead_ok.2⟩
    have hend : 60 ∉ 47 :: a.qname.text ++ [62] := by
      simp only [List.cons_append, List.mem_cons, List.mem_append, List.not_mem_nil, not_or]
      exact ⟨by decide, a.qname.notMem (by decide) (by decide), by decide, id⟩
    have htext : lead ++ ((a :: args).flatMap Argument.text ++ (gap ++ 60 :: rest)) =
        (lead ++ a.lead) ++ 60 :: (a.tag ++ 62 :: (a.value ++ 60 :: ((47 :: a.qname.text ++ [62]) ++
          (args.flatMap Argument.text ++ (gap ++ 60 :: rest))))) := by
      simp [Argument.text]
    rw [htext, elements_value_iff hboth (not_close hhead) htag hslash a.value_ok.2, a.tagName_tag]
    constructor
    · rintro ⟨l', rfl, h⟩
      obtain ⟨l'', rfl, h'⟩ := (elements_args hgap hend).mp h
      exact ⟨l'', rfl, h'⟩
    · rintro ⟨l'', rfl, h'⟩
      exact ⟨_, rfl, (elements_args hgap hend).mpr ⟨l'', rfl, h'⟩⟩

theorem Request.endTag_ok : 62 ∉ r.endTag ∧ r.endTag.getLast? ≠ some 47 := by
  have hnot : ∀ {c : UInt8}, c ∈ delimiters → c ≠ 58 → isSpace c = false → c ∉ r.action.text ++ r.space := by
    intro c hc hcolon hspace hmem
    rcases List.mem_append.mp hmem with h | h
    · exact r.action.notMem hc hcolon h
    · rw [r.space_ok c h] at hspace
      exact Bool.noConfusion hspace
  constructor
  · intro h
    rcases List.mem_cons.mp h with h | h
    · exact absurd h (by decide)
    · exact hnot (by decide) (by decide) (by decide) h
  · intro h
    rw [Request.endTag, List.getLast?_cons_of_ne_nil (List.append_ne_nil_of_left_ne_nil r.action.text_ne _)] at h
    exact hnot (by decide) (by decide) (by decide) (List.mem_of_getLast? h)

/-- The closing tag ends the arguments, or there is nothing behind it. -/
theorem elements_end_iff :
    Elements close (r.gap ++ 60 :: (r.endTag ++ 62 :: r.rest)) [] ↔
      close <+: 60 :: (r.endTag ++ 62 :: r.rest) ∨ 60 ∉ r.rest := by
  obtain ⟨htag, hslash⟩ := r.endTag_ok
  by_cases hclose : close <+: 60 :: (r.endTag ++ 62 :: r.rest)
  · exact ⟨fun _ => .inl hclose, fun _ => .close r.gap_ok.2 hclose⟩
  · constructor
    · intro h
      rcases elements_tag r.gap_ok.2 hclose htag hslash h with ⟨hnot, -⟩ | ⟨value, after, l', -, -, hcons, -⟩
      · exact .inr hnot
      · exact absurd hcons (List.cons_ne_nil _ _).symm
    · intro h
      exact .unended r.gap_ok.2 hclose htag hslash (h.resolve_left hclose)

theorem closing_eq (act tag : Bytes) : ∃ end', closing act tag = 60 :: 47 :: end' := ⟨_, rfl⟩

/-- The arguments of a request are those in its text. -/
theorem elements_content_iff :
    Elements (closing (r.tag ++ 62 :: r.content) r.tag) r.content r.arguments ↔
      closing (r.tag ++ 62 :: r.content) r.tag <+: 60 :: (r.endTag ++ 62 :: r.rest) ∨ 60 ∉ r.rest := by
  rw [← elements_end_iff]
  obtain ⟨end', hend⟩ := closing_eq (r.tag ++ 62 :: r.content) r.tag
  have hargs : Elements (60 :: 47 :: end') ([] ++ r.content) r.arguments ↔ ∃ l', r.arguments = r.arguments ++ l' ∧
      Elements (60 :: 47 :: end') (r.gap ++ 60 :: (r.endTag ++ 62 :: r.rest)) l' :=
    elements_args r.gap_ok.2 List.not_mem_nil
  rw [hend, ← List.nil_append r.content, hargs]
  constructor
  · rintro ⟨l', hl', h⟩
    rwa [List.self_eq_append_right.mp hl'] at h
  · intro h
    exact ⟨[], (List.append_nil _).symm, h⟩

end Read

/-! ### The whole request -/

theorem Request.actionAt_text : actionAt r.text = some (r.tag ++ 62 :: r.content) := by
  have hbody : strstr (bytes ":Body>") r.text = some r.head.length := strstr_first (by decide) _ r.head_ok.2
  have hskip : r.text.drop (r.head.length + 1) = bytes "Body>" ++ r.lead ++ 60 :: (r.tag ++ 62 :: r.content) := by
    rw [Request.text, ← List.drop_drop, List.drop_left]
    simp [bytes]
  have hnot : 60 ∉ bytes "Body>" ++ r.lead := by
    rw [List.mem_append, not_or]
    exact ⟨by decide, r.lead_ok.2⟩
  have hopen : strstr (bytes "<") (r.text.drop (r.head.length + 1)) = some (bytes "Body>" ++ r.lead).length := by
    rw [hskip]
    exact strstr_singleton hnot _
  rw [actionAt, hbody, Option.bind_some, hopen, Option.map_some, ← List.drop_drop, hskip, ← List.drop_drop,
    List.drop_left]
  rfl

section Whole

variable {size fuel p body : ℕ} {m : Mem} {close text : Bytes} {l : List (Bytes × Bytes)}

/-- What the loop passes on is how the text is read. -/
theorem soapLoop_args_iff (ac : Bytes) (h : Stands m p text) (hsize : p + text.length < size)
    (hfuel : text.length < fuel) :
    (Action.invoke ac (soapLoop size close fuel m p [])).args size = some l ↔ Elements close text l := by
  constructor
  · intro hargs
    by_contra hnot
    by_cases hread : ∃ l', Elements close text l'
    · obtain ⟨l', hl'⟩ := hread
      obtain ⟨m', args', hdone, hargs'⟩ := soapLoop_spec hl' h hsize hfuel Stored.nil
      rw [hdone, Action.args, hargs', List.nil_append, Option.some_inj] at hargs
      subst hargs
      exact hnot hl'
    · rw [soapLoop_missing [] (not_exists.mp hread) h hsize hfuel] at hargs
      exact Option.some_ne_none l hargs.symm
  · intro hread
    obtain ⟨m', args', hdone, hargs'⟩ := soapLoop_spec hread h hsize hfuel Stored.nil
    rw [hdone, Action.args, hargs', List.nil_append]

/-- When the arguments of a request are passed on as they are written. -/
theorem soapAction_args_iff {soapaction : Bytes} (hhash : 35 ∈ soapaction) (h : Stands m body r.text)
    (hsize : body + r.text.length < size) (hfuel : r.text.length < fuel) :
    (soapAction size fuel (some soapaction) m body).args size = some r.arguments ↔ r.Extracted := by
  obtain ⟨htag, hslash, -⟩ : 62 ∉ r.tag ∧ r.tag.getLast? ≠ some 47 ∧ _ := tag_ok r.action r.attributes
  obtain ⟨p, hstands, hopen, hle, hlen, hread⟩ := readBody_some fuel h hsize r.actionAt_text
  obtain ⟨name, ac, rfl, hname⟩ := List.eq_append_cons_of_mem hhash
  rw [soapAction, strpbrk_singleton hname]
  simp only
  rw [hread, Request.Extracted]
  have hin : p + (r.tag ++ 62 :: r.content).length < size := by omega
  split_ifs with hblank
  · obtain ⟨m', hstart, hrest⟩ := readAction_tag fuel hstands hin hopen hblank htag
    rw [List.length_append, List.length_cons] at hlen
    rw [hstart, if_neg hslash, soapLoop_args_iff _ hrest (by omega) (by omega), elements_content_iff]
  · rw [readAction_none hstands (.inl hblank)]
    show some [] = some (r.args.map _) ↔ r.args = []
    rw [Option.some_inj, eq_comm, List.map_eq_nil_iff]

/-- `<u:a><x>1</x></u:a>`, in `<s:Body>`. -/
def plainRequest : Request where
  head := bytes "<s"
  lead := []
  action := ⟨some (bytes "u"), bytes "a", by decide, by decide, by decide⟩
  attributes := ⟨[], by decide, by decide⟩
  args := [⟨[], ⟨none, bytes "x", by decide, by decide, by decide⟩, ⟨[], by decide, by decide⟩, bytes "1", by decide,
    by decide, by decide⟩]
  gap := []
  space := []
  rest := bytes "</s:Body>"
  head_ok := by decide
  lead_ok := by decide
  white := .inl rfl
  length_args := by decide
  gap_ok := by decide
  space_ok := by decide
  rest_ok := by decide

theorem soapAction_args_plain :
    (soapAction 99 40 (some (bytes "#a")) (write (fun _ => 0) 0 (plainRequest.text ++ [0])) 0).args 99 =
      some plainRequest.arguments ↔ plainRequest.Extracted :=
  soapAction_args_iff plainRequest (by decide) ⟨holds_write_same _ _ _, by decide⟩ (by decide) (by decide)

/-- Nothing is read of it; with a blank at its end, the closing tag is a second argument. -/
theorem soapAction_misreads :
    (soapAction 99 40 (some (bytes "#a")) (write (fun _ => 0) 0 (plainRequest.text ++ [0])) 0).args 99 ≠
        some plainRequest.arguments ∧
      (soapAction 99 40 (some (bytes "#a")) (write (fun _ => 0) 0 (plainRequest.text ++ [32, 0])) 0).args 99 ≠
        some plainRequest.arguments := by
  decide

end Whole

end Soap
end Upnp
end Router
