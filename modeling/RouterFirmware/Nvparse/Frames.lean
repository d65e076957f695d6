/-
# Which variables a converter touches

Each converter sets new variables and unsets the deprecated ones it has read; the
others keep their values. What it touches is given by the beginnings of names and
by a list of names, so that whether a given variable is touched can be computed.
-/
import RouterFirmware.Lib.Stage
import RouterFirmware.Nvparse.Convert

namespace Router
namespace Nvparse

open CMem CText Bits Netconf Stages
open Nvram (VarMap)

variable {L : Libc} {u : Undef} {nv nv' : VarMap}

/-- The value of a variable. -/
def look (nv : VarMap) (name : CStr) : Option CStr := nv.lookup name

/-- Names that begin in one of these ways, or are among those. -/
def touched (bases : List String) (names : List CStr) (name : CStr) : Bool :=
  (bases.any fun b => (bytes b).isPrefixOf name.bytes) || names.contains name

theorem touched_of_mem {bases : List String} {names : List CStr} {name : CStr} (h : name ∈ names) :
    touched bases names name = true := by
  unfold touched
  rw [List.contains_iff_mem.mpr h, Bool.or_true]

theorem touched_numbered {bases : List String} {names : List CStr} {base : String} (h : base ∈ bases)
    (hbase : (0 : UInt8) ∉ bytes base) (i : ℕ) : touched bases names (numbered base i) = true := by
  unfold touched
  rw [Bool.or_eq_true, List.any_eq_true]
  refine Or.inl ⟨base, h, ?_⟩
  rw [numbered_bytes base hbase, List.isPrefixOf_iff_prefix]
  exact List.prefix_append ..

section Store

variable {T : CStr → Bool} {name : CStr}

theorem frame_insert (h : T name = true) (v : CStr) : Frame look T nv (nv.insert name v) := by
  intro k hk
  apply Finmap.lookup_insert_of_ne
  rintro rfl
  rw [h] at hk
  cases hk

theorem frame_erase (h : T name = true) : Frame look T nv (nv.erase name) := by
  intro k hk
  apply Finmap.lookup_erase_ne
  rintro rfl
  rw [h] at hk
  cases hk

theorem assertValid_eq_some {valid : Bool} {pieces : List Bytes} :
    assertValid (setIfValid valid true nv name pieces) = some nv' ↔
      valid = true ∧ nv' = nv.insert name (cstr (putAll 1000 pieces)) := by
  unfold assertValid setIfValid nvramSet
  cases valid <;> simp [eq_comm]

theorem frame_assertValid (h : T name = true) {valid : Bool} {pieces : List Bytes}
    (hset : assertValid (setIfValid valid true nv name pieces) = some nv') : Frame look T nv nv' := by
  obtain ⟨-, rfl⟩ := assertValid_eq_some.mp hset
  exact frame_insert h _

/-- A list is walked, and then unset. -/
theorem frame_list {α : Type*} {g : VarMap → α → Option VarMap} {l : List α} (h : T name = true)
    (hg : ∀ {s a s'}, g s a = some s' → Frame look T s s')
    (hl : (l.foldlM g nv).map (·.erase name) = some nv') : Frame look T nv nv' := by
  obtain ⟨nv₁, h1, rfl⟩ := Option.map_eq_some_iff.mp hl
  exact (Frame.foldlM hg h1).trans (frame_erase h)

end Store

/-! ### The converters -/

theorem frame_convertForward {names : List CStr} {ipproto : ℕ} {word : Bytes}
    (h : convertForward L u ipproto nv word = some nv') : Frame look (touched ["forward_port"] names) nv nv' := by
  unfold convertForward at h
  cases hw : forwardWord L ipproto word with
  | none =>
    rw [hw] at h
    cases h
    exact .refl
  | some nat =>
    rw [hw] at h
    exact frame_assertValid (touched_numbered List.mem_cons_self (by decide) _) h

theorem frame_convertForwardProto {name : CStr} {ipproto : ℕ}
    (h : convertForwardProto L u name ipproto nv = some nv') :
    Frame look (touched ["forward_port"] [name]) nv nv' :=
  frame_list (touched_of_mem List.mem_cons_self) frame_convertForward h

theorem frame_addClient {names : List CStr} {i j : ℕ} {start stop : NetconfFilter}
    (h : addClient L u nv i start stop = some (nv', j)) :
    Frame look (touched ["filter_client"] names) nv nv' := by
  obtain ⟨nv₁, h1, h2⟩ := Option.map_eq_some_iff.mp h
  cases h2
  exact frame_assertValid (touched_numbered List.mem_cons_self (by decide) _) h1

theorem frame_convertIp {names : List CStr} {word : Bytes} (h : convertIp L u nv word = some nv') :
    Frame look (touched ["filter_client"] names) nv nv' := by
  unfold convertIp at h
  cases hw : filterIpWord L word with
  | none =>
    rw [hw] at h
    cases h
    exact .refl
  | some r =>
    rw [hw] at h
    obtain ⟨⟨nv₁, i⟩, h1, h⟩ := Option.bind_eq_some_iff.mp h
    obtain ⟨⟨nv₂, j⟩, h2, h⟩ := Option.bind_eq_some_iff.mp h
    cases h
    exact (frame_addClient h1).trans (frame_addClient h2)

theorem frame_convertFilterIp (h : convertFilterIp L u nv = some nv') :
    Frame look (touched ["filter_client"] [.lit "filter_ip"]) nv nv' :=
  frame_list (touched_of_mem List.mem_cons_self) frame_convertIp h

theorem frame_convertProto {names : List CStr} {ipproto : ℕ} {word : Bytes}
    (h : convertProto L u ipproto nv word = some nv') :
    Frame look (touched ["filter_client"] names) nv nv' := by
  unfold convertProto at h
  cases hw : filterProtoWord L ipproto word with
  | none =>
    rw [hw] at h
    cases h
    exact .refl
  | some start =>
    rw [hw] at h
    obtain ⟨⟨nv₁, i⟩, h1, h⟩ := Option.map_eq_some_iff.mp h
    cases h
    exact frame_addClient h1

theorem frame_convertFilterProto {name : CStr} {ipproto : ℕ}
    (h : convertFilterProto L u name ipproto nv = some nv') :
    Frame look (touched ["filter_client"] [name]) nv nv' :=
  frame_list (touched_of_mem List.mem_cons_self) frame_convertProto h

theorem frame_convertPort {names : List CStr} {i : ℕ} (hi : numbered "filter_port" i ∈ names)
    (h : convertPort L u nv i = some nv') : Frame look (touched ["filter_client"] names) nv nv' := by
  unfold convertPort at h
  cases hp : filterPort L nv i with
  | none =>
    rw [hp] at h
    cases h
    exact frame_erase (touched_of_mem hi)
  | some r =>
    rw [hp] at h
    obtain ⟨⟨nv₁, j⟩, h1, h⟩ := Option.map_eq_some_iff.mp h
    cases h
    exact (frame_addClient h1).trans (frame_erase (touched_of_mem hi))

/-- The variables that `convert_filter_port` reads and unsets. -/
def filterPortNames : List CStr := [1, 2, 3, 4, 5, 6].map (numbered "filter_port") ++ [.lit "filter_port"]

theorem frame_convertFilterPort (h : convertFilterPort L u nv = some nv') :
    Frame look (touched ["filter_client"] filterPortNames) nv nv' := by
  -- the turns of the loop are those of the list with the proofs that they are
  obtain ⟨nv₁, h1, rfl⟩ := Option.map_eq_some_iff.mp h
  refine Frame.trans ?_ (frame_erase (touched_of_mem (by simp [filterPortNames])))
  suffices hall : ∀ (l : List ℕ) (s : VarMap), (∀ i ∈ l, numbered "filter_port" i ∈ filterPortNames) →
      l.foldlM (convertPort L u) s = some nv₁ → Frame look (touched ["filter_client"] filterPortNames) s nv₁ by
    apply hall [1, 2, 3, 4, 5, 6] nv _ h1
    intro i hi
    exact List.mem_append_left _ (List.mem_map_of_mem hi)
  intro l
  induction l with
  | nil =>
    intro s _ hl
    cases hl
    exact .refl
  | cons i l ih =>
    intro s hmem hl
    rw [List.foldlM_cons] at hl
    obtain ⟨s₁, hs, hl⟩ := Option.bind_eq_some_iff.mp hl
    exact (frame_convertPort (hmem i List.mem_cons_self) hs).trans
      (ih s₁ (fun j hj => hmem j (List.mem_cons_of_mem i hj)) hl)

theorem frame_convertMaclist (mac maclist macmode : CStr) :
    Frame look (touched [] [mac, maclist, macmode]) nv (convertMaclist mac maclist macmode nv) := by
  unfold convertMaclist
  cases nv.lookup mac with
  | none => exact .refl
  | some value =>
    refine Frame.trans ?_ (frame_erase (touched_of_mem (by simp)))
    split_ifs
    · exact (frame_insert (touched_of_mem (by simp)) _).trans (frame_insert (touched_of_mem (by simp)) _)
    · exact frame_insert (touched_of_mem (by simp)) _

theorem frame_convertPppoeIfname :
    Frame look (touched [] [.lit "wan_ifname", .lit "pppoe_ifname"]) nv (convertPppoeIfname nv) := by
  unfold convertPppoeIfname
  refine Frame.trans ?_ (frame_erase (touched_of_mem (by simp)))
  cases nv.lookup (.lit "pppoe_ifname") with
  | none => exact .refl
  | some value =>
    dsimp only
    split_ifs
    · exact frame_insert (touched_of_mem (by simp)) _
    · exact .refl

theorem frame_convertAutofw {T : CStr → Bool} {i : ℕ} (hi : T (numbered "autofw_port" i) = true)
    (h : convertAutofw u nv i = some nv') : Frame look T nv nv' := by
  unfold convertAutofw at h
  dsimp only at h
  cases hl : (value? u nv (numbered "autofw_port" i)).bind autofwLine with
  | none =>
    rw [hl] at h
    cases h
    exact frame_erase hi
  | some l =>
    rw [hl] at h
    dsimp only at h
    split_ifs at h
    · cases h
      exact .refl
    · cases ha : autofwApp nv l with
      | none =>
        rw [ha] at h
        cases h
        exact frame_erase hi
      | some app =>
        rw [ha] at h
        exact frame_assertValid hi h

theorem frame_convertAutofwPort (h : convertAutofwPort u nv = some nv') :
    Frame look (touched ["autofw_port"] []) nv nv' :=
  Frame.foldlM (frame_convertAutofw (touched_numbered List.mem_cons_self (by decide) _)) h

/-- The variables that `convert_pppoe` reads, and those it sets. -/
def pppoeVars : List CStr := pppoeNames.map Prod.fst ++ pppoeNames.map Prod.snd

theorem frame_renameVar {T : CStr → Bool} {names : CStr × CStr} (h1 : T names.1 = true)
    (h2 : T names.2 = true) : Frame look T nv (renameVar nv names) := by
  unfold renameVar
  cases nv.lookup names.1 with
  | none => exact .refl
  | some value => exact (frame_insert h2 _).trans (frame_erase h1)

theorem frame_foldl {α : Type*} {T : CStr → Bool} {g : VarMap → α → VarMap} : ∀ {l : List α} {s : VarMap},
    (∀ a ∈ l, ∀ s, Frame look T s (g s a)) → Frame look T s (l.foldl g s)
  | [], _, _ => .refl
  | a :: l, s, h => by
    rw [List.foldl_cons]
    exact (h a List.mem_cons_self s).trans (frame_foldl fun b hb => h b (List.mem_cons_of_mem a hb))

theorem frame_convertPppoe : Frame look (touched [] pppoeVars) nv (convertPppoe nv) := by
  apply frame_foldl
  intro names hnames s
  apply frame_renameVar
  · exact touched_of_mem (List.mem_append_left _ (List.mem_map_of_mem hnames))
  · exact touched_of_mem (List.mem_append_right _ (List.mem_map_of_mem hnames))

theorem frame_setRoutes {T : CStr → Bool} {name : CStr} (h : T name = true) (pieces : List Bytes) :
    Frame look T nv (setRoutes nv name pieces) := by
  unfold setRoutes
  split_ifs
  · exact .refl
  · exact frame_insert h _

theorem frame_convertStaticRoute :
    Frame look (touched [] [.lit "lan_route", .lit "wan_route", .lit "static_route"]) nv
      (convertStaticRoute nv) := by
  have hlan : touched [] [.lit "lan_route", .lit "wan_route", .lit "static_route"] (.lit "lan_route") = true :=
    touched_of_mem (by simp)
  have hwan : touched [] [.lit "lan_route", .lit "wan_route", .lit "static_route"] (.lit "wan_route") = true :=
    touched_of_mem (by simp)
  exact ((frame_setRoutes hlan _).trans (frame_setRoutes hwan _)).trans
    (frame_erase (touched_of_mem (by simp)))

/-- Names that begin with `wl` and a digit. -/
def wlTouched (name : CStr) : Bool := (bytes "wl").isPrefixOf name.bytes && (name.bytes.drop 2).head?.any isDigit

theorem wlName_bytes (i : ℕ) (suffix : String) (h : (0 : UInt8) ∉ bytes suffix) :
    (wlName i suffix).bytes = bytes "wl" ++ (decimal i ++ (bytes "_" ++ bytes suffix)) := by
  unfold wlName
  rw [cstr_bytes]
  · simp
  · have h0 := notMem_decimal (c := 0) (by decide) i
    have hwl : (0 : UInt8) ∉ bytes "wl" := by decide
    have h_ : (0 : UInt8) ∉ bytes "_" := by decide
    simp [h, h0, hwl, h_]

theorem wlTouched_wlName (i : ℕ) (suffix : String) (h : (0 : UInt8) ∉ bytes suffix) :
    wlTouched (wlName i suffix) = true := by
  obtain ⟨c, l, hl, hc⟩ := decimal_eq_cons i
  unfold wlTouched
  rw [wlName_bytes i suffix h, hl, Bool.and_eq_true, List.isPrefixOf_iff_prefix]
  exact ⟨List.prefix_append .., hc⟩

/-- The variables of a wireless interface that `convert_wsec` sets. -/
def wlNames (i : ℕ) : List CStr :=
  [wlName i "wep", wlName i "crypto", wlName i "auth_mode", wlName i "auth", wlName i "akm"]

theorem wlTouched_of_mem {i : ℕ} : ∀ name ∈ wlNames i, wlTouched name = true := by
  intro name hname
  simp only [wlNames, List.mem_cons, List.not_mem_nil, or_false] at hname
  rcases hname with rfl | rfl | rfl | rfl | rfl
  · exact wlTouched_wlName i "wep" (by decide)
  · exact wlTouched_wlName i "crypto" (by decide)
  · exact wlTouched_wlName i "auth_mode" (by decide)
  · exact wlTouched_wlName i "auth" (by decide)
  · exact wlTouched_wlName i "akm" (by decide)

section Wl

variable {T : CStr → Bool} {i : ℕ}

theorem frame_convertWep (hwep : T (wlName i "wep") = true) (hcrypto : T (wlName i "crypto") = true)
    (wep : CStr) : Frame look T nv (convertWep nv i wep) := by
  unfold convertWep
  split_ifs
  · exact frame_insert hwep _
  · exact (frame_insert hcrypto _).trans (frame_insert hwep _)
  · exact frame_insert hwep _
  · exact .refl

theorem frame_convertAuth (hmode : T (wlName i "auth_mode") = true) (hauth : T (wlName i "auth") = true)
    (hakm : T (wlName i "akm") = true) : Frame look T nv (convertAuth nv i) := by
  have h1 : ∀ s, Frame look T s (combineAuth s i) := by
    intro s
    unfold combineAuth
    split_ifs
    · exact frame_insert hmode _
    · exact frame_insert hmode _
    · exact .refl
  have h2 : ∀ s, Frame look T s (splitAuth s i) := by
    intro s
    unfold splitAuth
    split_ifs
    · exact frame_insert hauth _
    · exact .refl
  have h3 : ∀ s, Frame look T s (splitAkm s i) := by
    intro s
    unfold splitAkm
    split_ifs
    · exact frame_insert hakm _
    · exact frame_insert hakm _
    · exact .refl
  have h4 : ∀ s, Frame look T s (keepRadius s i) := by
    intro s
    unfold keepRadius
    cases s.lookup (wlName i "auth_mode") with
    | none => exact .refl
    | some mode =>
      dsimp only
      split_ifs
      · exact .refl
      · exact frame_insert hmode _
  exact (((h1 nv).trans (h2 _)).trans (h3 _)).trans (h4 _)

theorem frame_convertWl (h : ∀ name ∈ wlNames i, T name = true) : Frame look T nv (convertWl nv i) := by
  unfold convertWl
  cases nv.lookup (wlName i "wep") with
  | none => exact .refl
  | some wep =>
    apply Frame.trans (frame_convertWep (h (wlName i "wep") (by simp [wlNames]))
      (h (wlName i "crypto") (by simp [wlNames])) wep)
    exact frame_convertAuth (h _ (by simp [wlNames])) (h _ (by simp [wlNames])) (h _ (by simp [wlNames]))

end Wl

theorem frame_convertWsec : Frame look wlTouched nv (convertWsec nv) :=
  frame_foldl fun _ _ _ => frame_convertWl wlTouched_of_mem

end Nvparse
end Router
