/-
# The devices, one after the other

`upnp/upnp/device.c`: `init_device` makes a device and, below it, the devices of its template; a root is put in front
of the other roots. `device_iterator` finds the next device from the links of one. `deviceIterator_visits` says that
it goes through any forest of linked devices in pre-order, `initDevice_spec` that `init_device` makes such forests.

A template has, besides the list of its devices, those that its `devinit` makes, as `IGDevice_Init` does. The fields
of a device that are no links are left out. An address is a number, and `malloc` returns any that is not in use.
-/
import RouterFirmware.Lib.Forest
import Mathlib.Data.Finset.Insert
import Mathlib.Logic.Function.Basic

namespace Router
namespace Upnp
namespace Device

open Forest

/-! ### The code -/

/-- `DeviceTemplate`. -/
inductive Template where
  | mk (devinit devicelist : List Template)

/-- The devices in memory, and `root_devices`. In `Node`, `subdevs` is `child`. -/
structure Devices where
  used : Finset ℕ
  device : ℕ → Node ℕ
  rootDevices : Option ℕ

def Devices.empty : Devices := ⟨∅, fun _ => ⟨none, none, none⟩, none⟩

/-- One device changed. -/
def Devices.set (d : Devices) (pdev : ℕ) (f : Node ℕ → Node ℕ) : Devices :=
  { d with device := Function.update d.device pdev (f (d.device pdev)) }

/-- `pdev = malloc(…); memset(pdev, 0, …); pdev->parent = parent;` -/
def Devices.create (d : Devices) (pdev : ℕ) (parent : Option ℕ) : Devices :=
  { d with used := insert pdev d.used, device := Function.update d.device pdev ⟨parent, none, none⟩ }

/-- `subdev->next = pdev->subdevs; pdev->subdevs = subdev;` -/
def Devices.addSubdev (d : Devices) (pdev subdev : ℕ) : Devices :=
  (d.set subdev fun n => { n with next := (d.device pdev).child }).set pdev fun n => { n with child := some subdev }

/-- `if (ISROOT(pdev)) { pdev->next = root_devices; root_devices = pdev; }` -/
def Devices.addRoot (d : Devices) (pdev : ℕ) : Devices :=
  if (d.device pdev).parent = none then
    { d.set pdev fun n => { n with next := d.rootDevices } with rootDevices := some pdev }
  else d

mutual

/-- `init_device(parent, pdevtmpl)`. -/
def initDevice (malloc : Devices → ℕ) (parent : Option ℕ) : Template → Devices → ℕ × Devices
  | .mk devinit devicelist, d =>
    let pdev := malloc d
    let d := d.create pdev parent
    let d := initSubdevs malloc pdev devinit d
    let d := initSubdevs malloc pdev devicelist d
    (pdev, d.addRoot pdev)

/-- Devices made below `pdev`. -/
def initSubdevs (malloc : Devices → ℕ) (pdev : ℕ) : List Template → Devices → Devices
  | [], d => d
  | t :: ts, d =>
    let subdev := (initDevice malloc (some pdev) t d).1
    let d := (initDevice malloc (some pdev) t d).2
    initSubdevs malloc pdev ts (d.addSubdev pdev subdev)

end

/-- All devices, from the templates of the roots. -/
def initDevices (malloc : Devices → ℕ) (roots : List Template) : Devices :=
  roots.foldl (fun d t => (initDevice malloc none t d).2) .empty

/-- The loop of `device_iterator`, with `fuel` turns. -/
def climb (d : Devices) : ℕ → Option ℕ → Option (Option ℕ)
  | _, none => some none
  | 0, some _ => none
  | fuel + 1, some nextdev =>
    match (d.device nextdev).next with
    | some next => some (some next)
    | none => climb d fuel (d.device nextdev).parent

/-- `device_iterator(pdev)`. -/
def deviceIterator (d : Devices) (fuel : ℕ) : Option ℕ → Option (Option ℕ)
  | none => some d.rootDevices
  | some pdev =>
    match (d.device pdev).child with
    | some subdev => some (some subdev)
    | none => climb d fuel (some pdev)

/-! ### The search -/

section Search

variable {d : Devices} {fuel : ℕ}

/-- Behind the pointer that is returned: the devices `l`, and then NULL. -/
def Returns (d : Devices) (fuel : ℕ) (r : Option (Option ℕ)) (l : List ℕ) : Prop :=
  match l with
  | [] => r = some none
  | pdev :: l => r = some (some pdev) ∧ Visits (deviceIterator d fuel) (some pdev) l

theorem visits_iff {o : Option ℕ} {l : List ℕ} :
    Visits (deviceIterator d fuel) o l ↔ Returns d fuel (deviceIterator d fuel o) l := by
  cases l <;> rfl

/-- A forest below `parent`, and what comes behind it, which is where the climb from `parent` leads. -/
theorem returns_append : ∀ {f : Forest ℕ} {parent o : Option ℕ} {depth : ℕ} {r : Option ℕ} {l : List ℕ},
    Links d.device parent o f → (∀ n ≥ depth, climb d n parent = some r) → depth + f.height ≤ fuel →
    Returns d fuel (some r) l → Returns d fuel (if o = none then some r else some o) (f.preorder ++ l)
  | .nil, parent, o, depth, r, l, h, _, _, hl => by
    rw [if_pos (show o = none from h)]
    exact hl
  | .cons root below rest, parent, o, depth, r, l, ⟨ho, hparent, hbelow, hrest⟩, hclimb, hfuel, hl => by
    subst ho
    have hheight : (Forest.cons root below rest).height = max (below.height + 1) rest.height := rfl
    -- behind what is below the root comes what the climb from it finds
    have hup : ∃ r', (∀ n ≥ depth + 1, climb d n (some root) = some r') ∧
        (if (d.device root).next = none then some r else some (d.device root).next) = some r' := by
      cases hnext : (d.device root).next with
      | some next =>
        refine ⟨some next, fun n hn => ?_, rfl⟩
        obtain ⟨n, rfl⟩ := Nat.exists_eq_add_one_of_ne_zero (by omega : n ≠ 0)
        rw [climb, hnext]
      | none =>
        refine ⟨r, fun n hn => ?_, rfl⟩
        obtain ⟨n, rfl⟩ := Nat.exists_eq_add_one_of_ne_zero (by omega : n ≠ 0)
        rw [climb, hnext, hparent]
        exact hclimb n (by omega)
    obtain ⟨r', hclimb', hr'⟩ := hup
    have hafter := returns_append hrest hclimb (by omega) hl
    rw [hr'] at hafter
    have hbelow' := returns_append hbelow hclimb' (by omega) hafter
    rw [if_neg (Option.some_ne_none root), Forest.preorder, List.cons_append, List.append_assoc]
    refine ⟨rfl, visits_iff.mpr ?_⟩
    cases hchild : (d.device root).child with
    | some subdev =>
      rw [hchild, if_neg (Option.some_ne_none subdev)] at hbelow'
      rw [deviceIterator, hchild]
      exact hbelow'
    | none =>
      rw [hchild, if_pos rfl] at hbelow'
      rw [deviceIterator, hchild, hclimb' fuel (by omega)]
      exact hbelow'

/-- The devices come in pre-order. -/
theorem deviceIterator_visits {f : Forest ℕ} (h : Links d.device none d.rootDevices f) (hfuel : f.height ≤ fuel) :
    Visits (deviceIterator d fuel) none f.preorder := by
  have hclimb : ∀ n ≥ 0, climb d n none = some none := fun n _ => by rw [climb]
  have hall := returns_append h hclimb (by rwa [Nat.zero_add]) (show Returns d fuel (some none) [] from rfl)
  have hroot : (if d.rootDevices = none then some none else some d.rootDevices) = some d.rootDevices := by
    split_ifs with hnone
    · rw [hnone]
    · rfl
  rw [hroot, List.append_nil] at hall
  exact visits_iff.mpr hall

end Search

/-! ### What is built -/

section Build

variable {malloc : Devices → ℕ}

/-- The devices below `pdev` are those of the forest. -/
structure Below (d : Devices) (pdev : ℕ) (below : Forest ℕ) : Prop where
  mem : pdev ∈ d.used
  links : Links d.device (some pdev) (d.device pdev).child below
  used : ∀ q ∈ below.preorder, q ∈ d.used ∧ q ≠ pdev

/-- All that is new is in the forest below `pdev`, and nothing else has changed. -/
structure Grows (d : Devices) (pdev : ℕ) (below : Forest ℕ) (d' : Devices) (below' : Forest ℕ) : Prop where
  frame : ∀ q ∈ d.used, q ≠ pdev → d'.device q = d.device q
  parent : (d'.device pdev).parent = (d.device pdev).parent
  next : (d'.device pdev).next = (d.device pdev).next
  roots : d'.rootDevices = d.rootDevices
  used : ∀ q, q ∈ d'.used ↔ q ∈ d.used ∨ q ∈ below'.preorder
  mono : ∀ q ∈ below.preorder, q ∈ below'.preorder
  fresh : ∀ q ∈ below'.preorder, q ∈ below.preorder ∨ q ∉ d.used

theorem Grows.refl {d : Devices} {pdev : ℕ} {below : Forest ℕ} (h : Below d pdev below) :
    Grows d pdev below d below where
  frame _ _ _ := rfl
  parent := rfl
  next := rfl
  roots := rfl
  used q := ⟨.inl, fun hq => hq.elim id fun hb => (h.used q hb).1⟩
  mono _ hq := hq
  fresh _ hq := .inl hq

theorem Grows.trans {d d' d'' : Devices} {pdev : ℕ} {below below' below'' : Forest ℕ}
    (h : Grows d pdev below d' below') (h' : Grows d' pdev below' d'' below'') : Grows d pdev below d'' below'' where
  frame q hq hne := by rw [h'.frame q ((h.used q).mpr (.inl hq)) hne, h.frame q hq hne]
  parent := h'.parent.trans h.parent
  next := h'.next.trans h.next
  roots := h'.roots.trans h.roots
  used q := by
    rw [h'.used, h.used]
    have := h'.mono q
    tauto
  mono q hq := h'.mono q (h.mono q hq)
  fresh q hq := by
    rcases h'.fresh q hq with hb | hn
    · exact h.fresh q hb
    · exact .inr fun hq' => hn ((h.used q).mpr (.inl hq'))

/-- A device that was made, with the forest below it. -/
structure Made (d : Devices) (parent : Option ℕ) (r : ℕ × Devices) (below : Forest ℕ) : Prop where
  subdevs : Below r.2 r.1 below
  new : r.1 ∉ d.used
  fresh : ∀ q ∈ below.preorder, q ∉ d.used
  frame : ∀ q ∈ d.used, r.2.device q = d.device q
  used : ∀ q, q ∈ r.2.used ↔ q ∈ d.used ∨ q = r.1 ∨ q ∈ below.preorder
  parent_eq : (r.2.device r.1).parent = parent
  roots : r.2.rootDevices = if parent = none then some r.1 else d.rootDevices
  next_eq : (r.2.device r.1).next = if parent = none then d.rootDevices else none

theorem below_create (d : Devices) (pdev : ℕ) (parent : Option ℕ) : Below (d.create pdev parent) pdev .nil where
  mem := Finset.mem_insert_self _ _
  links := by simp [Links, Devices.create]
  used _ hq := absurd hq List.not_mem_nil

theorem addSubdev_pdev (d : Devices) (pdev subdev : ℕ) (hne : subdev ≠ pdev) :
    (d.addSubdev pdev subdev).device pdev = { d.device pdev with child := some subdev } := by
  simp [Devices.addSubdev, Devices.set, Function.update_of_ne hne.symm]

theorem addSubdev_subdev (d : Devices) {pdev subdev : ℕ} (hne : subdev ≠ pdev) :
    (d.addSubdev pdev subdev).device subdev = { d.device subdev with next := (d.device pdev).child } := by
  simp [Devices.addSubdev, Devices.set, Function.update_of_ne hne]

theorem addSubdev_of_ne (d : Devices) {pdev subdev q : ℕ} (hp : q ≠ pdev) (hs : q ≠ subdev) :
    (d.addSubdev pdev subdev).device q = d.device q := by
  simp [Devices.addSubdev, Devices.set, Function.update_of_ne hp, Function.update_of_ne hs]

/-- A device put in front of those below `pdev`. -/
theorem grows_addSubdev {d : Devices} {pdev : ℕ} {below sub : Forest ℕ} {r : ℕ × Devices} (h : Below d pdev below)
    (made : Made d (some pdev) r sub) :
    Below (r.2.addSubdev pdev r.1) pdev (.cons r.1 sub below) ∧
      Grows d pdev below (r.2.addSubdev pdev r.1) (.cons r.1 sub below) := by
  have hne : r.1 ≠ pdev := fun he => made.new (he ▸ h.mem)
  have hpdev : r.2.device pdev = d.device pdev := made.frame pdev h.mem
  have hmem : pdev ∈ r.2.used := (made.used pdev).mpr (.inl h.mem)
  have hsub : ∀ q ∈ sub.preorder, q ≠ pdev := fun q hq he => made.fresh q hq (he ▸ h.mem)
  have hbelow : ∀ q ∈ below.preorder, q ≠ r.1 := fun q hq he => made.new (he ▸ (h.used q hq).1)
  have hall : ∀ q ∈ (Forest.cons r.1 sub below).preorder, q = r.1 ∨ q ∈ sub.preorder ∨ q ∈ below.preorder := by
    intro q hq
    rcases List.mem_cons.mp hq with hq | hq
    · exact .inl hq
    · exact .inr (List.mem_append.mp hq)
  constructor
  · refine ⟨hmem, ?_, ?_⟩
    · rw [addSubdev_pdev _ _ _ hne]
      refine ⟨rfl, ?_, ?_, ?_⟩
      · rw [addSubdev_subdev _ hne]
        exact made.parent_eq
      · rw [addSubdev_subdev _ hne]
        exact made.subdevs.links.congr fun q hq =>
          addSubdev_of_ne _ (hsub q hq) (made.subdevs.used q hq).2
      · rw [addSubdev_subdev _ hne, hpdev]
        refine h.links.congr fun q hq => ?_
        rw [addSubdev_of_ne _ (h.used q hq).2 (hbelow q hq), made.frame q (h.used q hq).1]
    · intro q hq
      rcases hall q hq with rfl | hq | hq
      · exact ⟨made.subdevs.mem, hne⟩
      · exact ⟨(made.subdevs.used q hq).1, hsub q hq⟩
      · exact ⟨(made.used q).mpr (.inl (h.used q hq).1), (h.used q hq).2⟩
  · exact {
      frame := fun q hq hqne => by
        have hqs : q ≠ r.1 := fun he => made.new (he ▸ hq)
        rw [addSubdev_of_ne _ hqne hqs, made.frame q hq]
      parent := by rw [addSubdev_pdev _ _ _ hne, hpdev]
      next := by rw [addSubdev_pdev _ _ _ hne, hpdev]
      roots := made.roots
      used := fun q => by
        have hq := made.used q
        have hin : q ∈ (Forest.cons r.1 sub below).preorder ↔ q = r.1 ∨ q ∈ sub.preorder ∨ q ∈ below.preorder := by
          simp [Forest.preorder]
        have hold := h.used q
        rw [hin]
        show q ∈ r.2.used ↔ _
        tauto
      mono := fun q hq => List.mem_cons_of_mem _ (List.mem_append_right _ hq)
      fresh := fun q hq => by
        rcases hall q hq with rfl | hq | hq
        · exact .inr made.new
        · exact .inr (made.fresh q hq)
        · exact .inl hq }

theorem addRoot_used (d : Devices) (pdev : ℕ) : (d.addRoot pdev).used = d.used := by
  unfold Devices.addRoot
  split_ifs <;> rfl

theorem addRoot_of_ne (d : Devices) {pdev q : ℕ} (hne : q ≠ pdev) : (d.addRoot pdev).device q = d.device q := by
  unfold Devices.addRoot
  split_ifs
  · exact Function.update_of_ne hne _ _
  · rfl

theorem addRoot_self (d : Devices) (pdev : ℕ) : (d.addRoot pdev).device pdev =
    { d.device pdev with
      next := if (d.device pdev).parent = none then d.rootDevices else (d.device pdev).next } := by
  unfold Devices.addRoot
  split_ifs
  · exact Function.update_self _ _ _
  · rfl

theorem addRoot_rootDevices (d : Devices) (pdev : ℕ) : (d.addRoot pdev).rootDevices =
    if (d.device pdev).parent = none then some pdev else d.rootDevices := by
  unfold Devices.addRoot
  split_ifs <;> rfl

/-- A device whose subdevices have been made. -/
theorem made_of_grows {d d' : Devices} {pdev : ℕ} {parent : Option ℕ} {below : Forest ℕ} (hnew : pdev ∉ d.used)
    (h : Below d' pdev below) (grows : Grows (d.create pdev parent) pdev .nil d' below) :
    Made d parent (pdev, d'.addRoot pdev) below := by
  have hself : (d.create pdev parent).device pdev = ⟨parent, none, none⟩ := Function.update_self _ _ _
  have hold : ∀ q ∈ d.used, q ≠ pdev := fun q hq he => hnew (he ▸ hq)
  have hparent : (d'.device pdev).parent = parent := by rw [grows.parent, hself]
  have hnext : (d'.device pdev).next = none := by rw [grows.next, hself]
  have hroots : d'.rootDevices = d.rootDevices := grows.roots
  refine ⟨⟨?_, ?_, ?_⟩, hnew, ?_, ?_, ?_, ?_, ?_, ?_⟩
  · rw [addRoot_used]
    exact h.mem
  · rw [addRoot_self]
    exact h.links.congr fun q hq => addRoot_of_ne _ (h.used q hq).2
  · rw [addRoot_used]
    exact h.used
  · intro q hq hmem
    exact (grows.fresh q hq).elim List.not_mem_nil fun hnot => hnot (Finset.mem_insert_of_mem hmem)
  · intro q hq
    rw [addRoot_of_ne _ (hold q hq), grows.frame q (Finset.mem_insert_of_mem hq) (hold q hq)]
    exact Function.update_of_ne (hold q hq) _ _
  · intro q
    rw [addRoot_used, grows.used, Devices.create, Finset.mem_insert]
    tauto
  · rw [addRoot_self, hparent]
  · rw [addRoot_rootDevices, hparent, hroots]
  · rw [addRoot_self, hparent, hnext, hroots]

mutual

theorem initDevice_spec (hmalloc : ∀ d, malloc d ∉ d.used) : ∀ (t : Template) (parent : Option ℕ) (d : Devices),
    ∃ below, Made d parent (initDevice malloc parent t d) below
  | .mk devinit devicelist, parent, d => by
    obtain ⟨b1, h1, g1⟩ := initSubdevs_spec hmalloc devinit (below_create d (malloc d) parent)
    obtain ⟨b2, h2, g2⟩ := initSubdevs_spec hmalloc devicelist h1
    exact ⟨b2, made_of_grows (hmalloc d) h2 (g1.trans g2)⟩

theorem initSubdevs_spec (hmalloc : ∀ d, malloc d ∉ d.used) : ∀ (ts : List Template) {pdev : ℕ} {d : Devices}
    {below : Forest ℕ}, Below d pdev below →
    ∃ below', Below (initSubdevs malloc pdev ts d) pdev below' ∧
      Grows d pdev below (initSubdevs malloc pdev ts d) below'
  | [], pdev, d, below, h => ⟨below, h, .refl h⟩
  | t :: ts, pdev, d, below, h => by
    obtain ⟨sub, made⟩ := initDevice_spec hmalloc t (some pdev) d
    obtain ⟨hadd, hgrow⟩ := grows_addSubdev h made
    obtain ⟨below', h', g'⟩ := initSubdevs_spec hmalloc ts hadd
    exact ⟨below', h', hgrow.trans g'⟩

end

/-- The roots that were made are a forest of all devices. -/
theorem initDevices_spec (hmalloc : ∀ d, malloc d ∉ d.used) (roots : List Template) : ∃ f : Forest ℕ,
    Links (initDevices malloc roots).device none (initDevices malloc roots).rootDevices f ∧
      ∀ q, q ∈ (initDevices malloc roots).used ↔ q ∈ f.preorder := by
  have hfold : ∀ (ts : List Template) (d : Devices) (f : Forest ℕ), Links d.device none d.rootDevices f →
      (∀ q, q ∈ d.used ↔ q ∈ f.preorder) →
      ∃ f' : Forest ℕ, Links (ts.foldl (fun d t => (initDevice malloc none t d).2) d).device none
        (ts.foldl (fun d t => (initDevice malloc none t d).2) d).rootDevices f' ∧
        ∀ q, q ∈ (ts.foldl (fun d t => (initDevice malloc none t d).2) d).used ↔ q ∈ f'.preorder := by
    intro ts
    induction ts with
    | nil => exact fun d f h hused => ⟨f, h, hused⟩
    | cons t ts ih =>
      intro d f h hused
      obtain ⟨below, made⟩ := initDevice_spec hmalloc t none d
      apply ih _ (.cons (initDevice malloc none t d).1 below f)
      · refine ⟨made.roots, made.parent_eq, made.subdevs.links, ?_⟩
        rw [made.next_eq, if_pos rfl]
        exact h.congr fun q hq => made.frame q ((hused q).mpr hq)
      · intro q
        rw [made.used q, hused q]
        simp only [Forest.preorder, List.mem_cons, List.mem_append]
        tauto
  exact hfold roots .empty .nil rfl fun q => by simp [Devices.empty, Forest.preorder]

/-- `device_iterator` goes once through all devices that `init_device` made, in pre-order, and then gives NULL. -/
theorem deviceIterator_enumerates (hmalloc : ∀ d, malloc d ∉ d.used) (roots : List Template) : ∃ f : Forest ℕ,
    Links (initDevices malloc roots).device none (initDevices malloc roots).rootDevices f ∧
      (∀ q, q ∈ (initDevices malloc roots).used ↔ q ∈ f.preorder) ∧ f.preorder.Nodup ∧
      ∀ fuel ≥ (initDevices malloc roots).used.card,
        Visits (deviceIterator (initDevices malloc roots) fuel) none f.preorder := by
  obtain ⟨f, hlinks, hused⟩ := initDevices_spec hmalloc roots
  have hnodup := (deviceIterator_visits hlinks le_rfl).nodup
  refine ⟨f, hlinks, hused, hnodup, fun fuel hfuel => deviceIterator_visits hlinks ?_⟩
  have hcard : (initDevices malloc roots).used = f.preorder.toFinset := by
    ext q
    rw [hused, List.mem_toFinset]
  calc f.height ≤ f.preorder.length := f.height_le
    _ = (initDevices malloc roots).used.card := by rw [hcard, List.toFinset_card_of_nodup hnodup]
    _ ≤ fuel := hfuel

/-- The address behind all that are in use. -/
def behind (d : Devices) : ℕ := d.used.sup id + 1

theorem behind_notMem (d : Devices) : behind d ∉ d.used := by
  intro h
  have hle : behind d ≤ d.used.sup id := Finset.le_sup (f := id) h
  exact Nat.not_succ_le_self _ hle

/-- A gateway, with the LAN device and the WAN device that `IGDevice_Init` makes, and the connection of the latter. -/
theorem deviceIterator_enumerates_igd : ∃ f : Forest ℕ,
    Links (initDevices behind [.mk [.mk [] [], .mk [] [.mk [] []]] []]).device none
        (initDevices behind [.mk [.mk [] [], .mk [] [.mk [] []]] []]).rootDevices f ∧
      (∀ q, q ∈ (initDevices behind [.mk [.mk [] [], .mk [] [.mk [] []]] []]).used ↔ q ∈ f.preorder) ∧
      f.preorder.Nodup ∧
      ∀ fuel ≥ (initDevices behind [.mk [.mk [] [], .mk [] [.mk [] []]] []]).used.card,
        Visits (deviceIterator (initDevices behind [.mk [.mk [] [], .mk [] [.mk [] []]] []]) fuel) none f.preorder :=
  deviceIterator_enumerates behind_notMem _

/-- The WAN device was made last and comes first, with its connection. -/
example : (initDevices behind [.mk [.mk [] [], .mk [] [.mk [] []]] []]).rootDevices = some 1 ∧
    deviceIterator (initDevices behind [.mk [.mk [] [], .mk [] [.mk [] []]] []]) 4 (some 1) = some (some 3) ∧
    deviceIterator (initDevices behind [.mk [.mk [] [], .mk [] [.mk [] []]] []]) 4 (some 3) = some (some 4) ∧
    deviceIterator (initDevices behind [.mk [.mk [] [], .mk [] [.mk [] []]] []]) 4 (some 4) = some (some 2) ∧
    deviceIterator (initDevices behind [.mk [.mk [] [], .mk [] [.mk [] []]] []]) 4 (some 2) = some none := by
  decide

end Build

end Device
end Upnp
end Router
