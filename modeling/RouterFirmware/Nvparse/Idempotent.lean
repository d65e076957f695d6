/-
# Converting twice

A converter unsets what it has read, or leaves it in the new form, and on a store
where that is done it does nothing. No later converter sets one of these
variables again, so the whole conversion is idempotent.
-/
import RouterFirmware.Nvparse.Asserts

namespace Router
namespace Nvparse

open CMem CText Bits Netconf Stages
open Nvram (VarMap)

variable {L : Libc} {u : Undef} {nv nv' : VarMap}

theorem erase_of_lookup_none {name : CStr} (h : look nv name = none) : nv.erase name = nv := by
  apply Finmap.ext_lookup
  intro k
  by_cases hk : k = name
  · rw [hk, Finmap.lookup_erase]
    exact h.symm
  · exact Finmap.lookup_erase_ne hk

theorem insert_of_lookup {name v : CStr} (h : look nv name = some v) : nv.insert name v = nv := by
  apply Finmap.ext_lookup
  intro k
  by_cases hk : k = name
  · rw [hk, Finmap.lookup_insert]
    exact h.symm
  · exact Finmap.lookup_insert_of_ne _ hk

theorem nvramSafeGet_none {name : CStr} (h : look nv name = none) : nvramSafeGet nv name = [] := by
  unfold nvramSafeGet
  rw [show nv.lookup name = none from h]
  rfl

/-! ### Lists -/

/-- A list that is walked and then unset. -/
theorem settles_words {T : CStr → Bool} {name : CStr} {g : VarMap → Bytes → Option VarMap}
    (hname : T name = true) (hframe : ∀ {s a s'}, g s a = some s' → Frame look T s s') :
    Settles look (fun nv => ((words 1000 (nvramSafeGet nv name)).foldlM g nv).map (·.erase name)) T
      (fun nv => look nv name = none) [name] where
  frame h := frame_list hname hframe h
  settles h := by
    obtain ⟨nv₁, -, rfl⟩ := Option.map_eq_some_iff.mp h
    exact Finmap.lookup_erase name nv₁
  idle h := by
    rw [nvramSafeGet_none h]
    show some (Finmap.erase _ _) = _
    rw [erase_of_lookup_none h]
  stable h hnone := (h _ List.mem_cons_self).trans hnone

theorem settles_convertForwardProto (name : CStr) (ipproto : ℕ) :
    Settles look (convertForwardProto L u name ipproto) (touched ["forward_port"] [name])
      (fun nv => look nv name = none) [name] :=
  settles_words (touched_of_mem List.mem_cons_self) frame_convertForward

theorem settles_convertFilterIp :
    Settles look (convertFilterIp L u) (touched ["filter_client"] [.lit "filter_ip"])
      (fun nv => look nv (.lit "filter_ip") = none) [.lit "filter_ip"] :=
  settles_words (touched_of_mem List.mem_cons_self) frame_convertIp

theorem settles_convertFilterProto (name : CStr) (ipproto : ℕ) :
    Settles look (convertFilterProto L u name ipproto) (touched ["filter_client"] [name])
      (fun nv => look nv name = none) [name] :=
  settles_words (touched_of_mem List.mem_cons_self) frame_convertProto

/-! ### Lines of `filter_port` -/

theorem convertPort_done {i : ℕ} (h : convertPort L u nv i = some nv') :
    look nv' (numbered "filter_port" i) = none := by
  unfold convertPort at h
  cases hp : filterPort L nv i with
  | none =>
    rw [hp] at h
    cases h
    exact Finmap.lookup_erase ..
  | some r =>
    rw [hp] at h
    obtain ⟨r₁, -, rfl⟩ := Option.map_eq_some_iff.mp h
    exact Finmap.lookup_erase ..

theorem convertPort_keep {i j : ℕ} (h : convertPort L u nv i = some nv')
    (hj : look nv (numbered "filter_port" j) = none) : look nv' (numbered "filter_port" j) = none := by
  by_cases hji : j = i
  · rw [hji]
    exact convertPort_done h
  · have hframe : Frame look (touched ["filter_client"] [numbered "filter_port" i]) nv nv' :=
      frame_convertPort List.mem_cons_self h
    rw [hframe, hj]
    apply touched_numbered_eq_false (by decide) (by decide)
    rw [List.mem_singleton]
    exact fun he => hji (numbered_inj (by decide) he)

theorem settles_convertFilterPort :
    Settles look (convertFilterPort L u) (touched ["filter_client"] filterPortNames)
      (fun nv => ∀ n ∈ filterPortNames, look nv n = none) filterPortNames where
  frame h := frame_convertFilterPort h
  settles h := by
    obtain ⟨nv₁, h1, rfl⟩ := Option.map_eq_some_iff.mp h
    intro n hn
    by_cases hn' : n = .lit "filter_port"
    · rw [hn']
      exact Finmap.lookup_erase ..
    · rw [show look (nv₁.erase (.lit "filter_port")) n = look nv₁ n from Finmap.lookup_erase_ne hn']
      rcases List.mem_append.mp hn with hn | hn
      · obtain ⟨i, hi, rfl⟩ := List.mem_map.mp hn
        exact foldlM_done (g := convertPort L u) (D := fun s i => look s (numbered "filter_port" i) = none)
          convertPort_done convertPort_keep h1 i (Or.inl hi)
      · exact absurd (List.mem_singleton.mp hn) hn'
  idle {nv} h := by
    have hturn : ∀ i ∈ [1, 2, 3, 4, 5, 6], convertPort L u nv i = some nv := by
      intro i hi
      have hnone := h _ (List.mem_append_left _ (List.mem_map_of_mem hi))
      have hport : filterPort L nv i = none := by
        unfold filterPort
        rw [show nv.lookup (numbered "filter_port" i) = none from hnone]
      unfold convertPort
      rw [hport]
      exact congrArg some (erase_of_lookup_none hnone)
    unfold convertFilterPort
    rw [foldlM_idle hturn]
    exact congrArg some (erase_of_lookup_none (h _ (by simp [filterPortNames])))
  stable h hnone n hn := (h n hn).trans (hnone n hn)

/-! ### Applications -/

/-- An application that is not converted: there is none, or its line is new. -/
def AutofwSettled (u : Undef) (nv : VarMap) (i : ℕ) : Prop :=
  look nv (numbered "autofw_port" i) = none ∨
    ∃ l, (value? u nv (numbered "autofw_port" i)).bind autofwLine = some l ∧
      (strsep (bytes "-") l.outPort).2.isSome = true

theorem autofwSettled_congr {i : ℕ} (h : look nv' (numbered "autofw_port" i) = look nv (numbered "autofw_port" i)) :
    AutofwSettled u nv i → AutofwSettled u nv' i := by
  unfold AutofwSettled value?
  rw [h, show nv'.lookup (numbered "autofw_port" i) = nv.lookup (numbered "autofw_port" i) from h]
  exact id

/-- A line that has been set has a range of outbound ports. -/
theorem convertAutofw_done {i : ℕ} (h : convertAutofw u nv i = some nv') : AutofwSettled u nv' i := by
  unfold convertAutofw at h
  dsimp only at h
  cases hl : (value? u nv (numbered "autofw_port" i)).bind autofwLine with
  | none =>
    rw [hl] at h
    cases h
    exact Or.inl (Finmap.lookup_erase ..)
  | some l =>
    rw [hl] at h
    dsimp only at h
    split_ifs at h with hnew
    · cases h
      exact Or.inr ⟨l, hl, hnew⟩
    · cases ha : autofwApp nv l with
      | none =>
        rw [ha] at h
        cases h
        exact Or.inl (Finmap.lookup_erase ..)
      | some app =>
        rw [ha] at h
        obtain ⟨-, rfl⟩ := assertValid_eq_some.mp h
        obtain ⟨desc, -, hline⟩ := autofwLine_set (u := u) app nv i
        refine Or.inr ⟨autofwParts app desc, hline, ?_⟩
        have hdash : Without "-" (decimal (ntohs app.m.dst.ports.1).toNat) := without_decimal (by decide) _
        have hsep : strsep (bytes "-") (printPorts app.m.dst.ports).flatten =
            (decimal (ntohs app.m.dst.ports.1).toNat, some (decimal (ntohs app.m.dst.ports.2).toNat)) := by
          rw [show (printPorts app.m.dst.ports).flatten = decimal (ntohs app.m.dst.ports.1).toNat ++
            45 :: decimal (ntohs app.m.dst.ports.2).toNat by simp [printPorts, bytes]]
          exact strsep_append (by decide) _ hdash
        show (strsep (bytes "-") (printPorts app.m.dst.ports).flatten).2.isSome = true
        rw [hsep]
        rfl

theorem convertAutofw_keep {i j : ℕ} (h : convertAutofw u nv i = some nv') (hj : AutofwSettled u nv j) :
    AutofwSettled u nv' j := by
  by_cases hji : j = i
  · rw [hji]
    exact convertAutofw_done h
  · have hframe : Frame look (touched [] [numbered "autofw_port" i]) nv nv' :=
      frame_convertAutofw (touched_of_mem List.mem_cons_self) h
    apply autofwSettled_congr _ hj
    apply hframe
    apply touched_numbered_eq_false (by decide) (by decide)
    rw [List.mem_singleton]
    exact fun he => hji (numbered_inj (by decide) he)

theorem convertAutofw_idle {i : ℕ} (h : AutofwSettled u nv i) : convertAutofw u nv i = some nv := by
  unfold convertAutofw
  rcases h with hnone | ⟨l, hl, hnew⟩
  · have hvalue : value? u nv (numbered "autofw_port" i) = none := by
      unfold value?
      rw [show nv.lookup (numbered "autofw_port" i) = none from hnone]
    dsimp only
    rw [hvalue]
    exact congrArg some (erase_of_lookup_none hnone)
  · dsimp only
    rw [hl]
    exact if_pos hnew

theorem settles_convertAutofwPort :
    Settles look (convertAutofwPort u) (touched ["autofw_port"] [])
      (fun nv => ∀ i ∈ List.range 10, AutofwSettled u nv i) ((List.range 10).map (numbered "autofw_port")) where
  frame h := frame_convertAutofwPort h
  settles h i hi := foldlM_done (g := convertAutofw u) (D := AutofwSettled u) convertAutofw_done
    convertAutofw_keep h i (Or.inl hi)
  idle h := foldlM_idle fun i hi => convertAutofw_idle (h i hi)
  stable h hs i hi := autofwSettled_congr (h _ (List.mem_map_of_mem hi)) (hs i hi)

/-! ### Converters without an assertion -/

theorem settles_convertMaclist (mac maclist macmode : CStr) :
    Settles look (fun nv => some (convertMaclist mac maclist macmode nv)) (touched [] [mac, maclist, macmode])
      (fun nv => look nv mac = none) [mac] where
  frame h := by
    cases h
    exact frame_convertMaclist mac maclist macmode
  settles {s _} h := by
    cases h
    unfold convertMaclist
    cases hl : s.lookup mac with
    | none => exact hl
    | some value => exact Finmap.lookup_erase ..
  idle {s} h := by
    unfold convertMaclist
    rw [show s.lookup mac = none from h]
  stable h hnone := (h _ List.mem_cons_self).trans hnone

theorem settles_convertPppoeIfname :
    Settles look (fun nv => some (convertPppoeIfname nv)) (touched [] [.lit "wan_ifname", .lit "pppoe_ifname"])
      (fun nv => look nv (.lit "pppoe_ifname") = none) [.lit "pppoe_ifname"] where
  frame h := by
    cases h
    exact frame_convertPppoeIfname
  settles h := by
    cases h
    exact Finmap.lookup_erase ..
  idle {s} h := by
    unfold convertPppoeIfname
    rw [show s.lookup (.lit "pppoe_ifname") = none from h]
    exact congrArg some (erase_of_lookup_none h)
  stable h hnone := (h _ List.mem_cons_self).trans hnone

theorem settles_convertStaticRoute :
    Settles look (fun nv => some (convertStaticRoute nv))
      (touched [] [.lit "lan_route", .lit "wan_route", .lit "static_route"])
      (fun nv => look nv (.lit "static_route") = none) [.lit "static_route"] where
  frame h := by
    cases h
    exact frame_convertStaticRoute
  settles h := by
    cases h
    exact Finmap.lookup_erase ..
  idle h := by
    unfold convertStaticRoute
    rw [nvramSafeGet_none h]
    exact congrArg some (erase_of_lookup_none h)
  stable h hnone := (h _ List.mem_cons_self).trans hnone

theorem renameVars_done : ∀ {l : List (CStr × CStr)} {s : VarMap}, (∀ a ∈ l, a ∈ pppoeNames) →
    ∀ b ∈ pppoeNames, b ∈ l ∨ look s b.1 = none → look (l.foldl renameVar s) b.1 = none
  | [], s, _, b, _, h => h.resolve_left List.not_mem_nil
  | a :: l, s, hl, b, hb, h => by
    rw [List.foldl_cons]
    apply renameVars_done (fun c hc => hl c (List.mem_cons_of_mem a hc)) b hb
    -- no new name is an old one
    have hne : b.1 ≠ a.2 := by
      have hall : ∀ x ∈ pppoeNames, ∀ y ∈ pppoeNames, y.1 ≠ x.2 := by decide
      exact hall a (hl a List.mem_cons_self) b hb
    by_cases hab : b.1 = a.1
    · refine Or.inr ?_
      unfold renameVar
      rw [hab]
      cases hs : s.lookup a.1 with
      | none => exact hs
      | some value => exact Finmap.lookup_erase ..
    · refine h.imp (fun hmem => (List.mem_cons.mp hmem).resolve_left fun he => hab (congrArg Prod.fst he)) ?_
      intro hnone
      unfold renameVar
      cases s.lookup a.1 with
      | none => exact hnone
      | some value =>
        show ((s.insert a.2 value).erase a.1).lookup b.1 = none
        rw [Finmap.lookup_erase_ne hab, Finmap.lookup_insert_of_ne _ hne]
        exact hnone

theorem settles_convertPppoe :
    Settles look (fun nv => some (convertPppoe nv)) (touched [] pppoeVars)
      (fun nv => ∀ b ∈ pppoeNames, look nv b.1 = none) (pppoeNames.map Prod.fst) where
  frame h := by
    cases h
    exact frame_convertPppoe
  settles h b hb := by
    cases h
    exact renameVars_done (fun _ ha => ha) b hb (Or.inl hb)
  idle {s} h := by
    have hturn : ∀ b ∈ pppoeNames, renameVar s b = s := by
      intro b hb
      unfold renameVar
      rw [show s.lookup b.1 = none from h b hb]
    exact congrArg some (foldl_idle hturn)
  stable h hs b hb := (h _ (List.mem_map_of_mem hb)).trans (hs b hb)

/-! ### Wireless interfaces -/

theorem wlName_inj {i j : ℕ} {s t : String} (hs : (0 : UInt8) ∉ bytes s) (ht : (0 : UInt8) ∉ bytes t)
    (h : wlName i s = wlName j t) : i = j ∧ bytes s = bytes t := by
  have hbytes := congrArg CStr.bytes h
  rw [wlName_bytes i s hs, wlName_bytes j t ht] at hbytes
  have hcancel := List.append_cancel_left hbytes
  have hdigits := congrArg (List.takeWhile isDigit) hcancel
  have hbar : ∀ r : Bytes, ∀ c ∈ (bytes "_" ++ r).head?, isDigit c = false := by
    intro r c hc
    cases Option.mem_some.mp hc
    rfl
  rw [takeWhile_digits (isDigit_of_mem_decimal i) (hbar _), takeWhile_digits (isDigit_of_mem_decimal j) (hbar _)]
    at hdigits
  have hij := decimal_inj hdigits
  subst hij
  exact ⟨rfl, List.append_cancel_left (List.append_cancel_left hcancel)⟩

/-- An interface that is not converted: it has no `wep`, or both `wep` and `auth_mode`
are of the new kind. -/
def WlSettled (nv : VarMap) (i : ℕ) : Prop :=
  look nv (wlName i "wep") = none ∨
    (look nv (wlName i "wep") = some (.lit "enabled") ∨ look nv (wlName i "wep") = some (.lit "disabled")) ∧
    (look nv (wlName i "auth_mode") = none ∨ look nv (wlName i "auth_mode") = some (.lit "radius") ∨
      look nv (wlName i "auth_mode") = some (.lit "none"))

theorem keepRadius_mode (i : ℕ) : look (keepRadius nv i) (wlName i "auth_mode") = none ∨
    look (keepRadius nv i) (wlName i "auth_mode") = some (.lit "radius") ∨
      look (keepRadius nv i) (wlName i "auth_mode") = some (.lit "none") := by
  unfold keepRadius
  cases hl : nv.lookup (wlName i "auth_mode") with
  | none => exact Or.inl hl
  | some mode =>
    dsimp only
    split_ifs with hmode
    · rw [hmode] at hl
      exact Or.inr (Or.inl hl)
    · exact Or.inr (Or.inr (Finmap.lookup_insert ..))

theorem convertWep_wep {i : ℕ} {wep : CStr} (h : look nv (wlName i "wep") = some wep) :
    look (convertWep nv i wep) (wlName i "wep") = some (.lit "enabled") ∨
      look (convertWep nv i wep) (wlName i "wep") = some (.lit "disabled") := by
  unfold convertWep
  split_ifs with h1 h2 h3
  · exact Or.inl (Finmap.lookup_insert ..)
  · exact Or.inr (Finmap.lookup_insert ..)
  · exact Or.inr (Finmap.lookup_insert ..)
  · rw [not_not.mp h3] at h
    exact Or.inl h

theorem convertWl_done (nv : VarMap) (i : ℕ) : WlSettled (convertWl nv i) i := by
  unfold convertWl
  cases hwep : nv.lookup (wlName i "wep") with
  | none => exact Or.inl hwep
  | some wep =>
    have hsame : look (convertAuth (convertWep nv i wep) i) (wlName i "wep") =
        look (convertWep nv i wep) (wlName i "wep") := by
      have hframe : Frame look (touched [] [wlName i "auth_mode", wlName i "auth", wlName i "akm"])
          (convertWep nv i wep) (convertAuth (convertWep nv i wep) i) :=
        frame_convertAuth (touched_of_mem (by simp)) (touched_of_mem (by simp)) (touched_of_mem (by simp))
      apply hframe
      rw [touched, List.any_nil, Bool.false_or, Bool.eq_false_iff]
      intro hc
      have hmem := List.contains_iff_mem.mp hc
      simp only [List.mem_cons, List.not_mem_nil, or_false] at hmem
      rcases hmem with he | he | he
      · exact absurd (wlName_inj (by decide) (by decide) he).2 (by decide)
      · exact absurd (wlName_inj (by decide) (by decide) he).2 (by decide)
      · exact absurd (wlName_inj (by decide) (by decide) he).2 (by decide)
    refine Or.inr ⟨?_, keepRadius_mode i⟩
    dsimp only
    rw [hsame]
    exact convertWep_wep hwep

theorem wlSettled_congr {i : ℕ} (hwep : look nv' (wlName i "wep") = look nv (wlName i "wep"))
    (hmode : look nv' (wlName i "auth_mode") = look nv (wlName i "auth_mode")) (h : WlSettled nv i) :
    WlSettled nv' i := by
  unfold WlSettled
  rw [hwep, hmode]
  exact h

theorem convertWl_keep {i j : ℕ} (hj : WlSettled nv j) : WlSettled (convertWl nv i) j := by
  by_cases hji : j = i
  · rw [hji]
    exact convertWl_done nv i
  · have hframe : Frame look (touched [] (wlNames i)) nv (convertWl nv i) :=
      frame_convertWl fun _ hname => touched_of_mem hname
    have hother : ∀ s : String, (0 : UInt8) ∉ bytes s → touched [] (wlNames i) (wlName j s) = false := by
      intro s hs
      rw [touched, List.any_nil, Bool.false_or, Bool.eq_false_iff]
      intro hc
      have hmem := List.contains_iff_mem.mp hc
      simp only [wlNames, List.mem_cons, List.not_mem_nil, or_false] at hmem
      rcases hmem with he | he | he | he | he
      all_goals exact hji (wlName_inj hs (by decide) he).1
    exact wlSettled_congr (hframe _ (hother _ (by decide))) (hframe _ (hother _ (by decide))) hj

theorem convertAuth_idle {i : ℕ} (h : look nv (wlName i "auth_mode") = none ∨
    look nv (wlName i "auth_mode") = some (.lit "radius") ∨
      look nv (wlName i "auth_mode") = some (.lit "none")) : convertAuth nv i = nv := by
  have hmode : ∀ m : CStr, m ≠ .lit "radius" → m ≠ .lit "none" →
      nv.lookup (wlName i "auth_mode") ≠ some m := by
    intro m hradius hnone he
    rcases h with h | h | h
    · cases h.symm.trans he
    · exact hradius (Option.some.inj (he.symm.trans h))
    · exact hnone (Option.some.inj (he.symm.trans h))
  have h1 : combineAuth nv i = nv := if_neg (hmode _ (by decide) (by decide))
  have h2 : splitAuth nv i = nv := if_neg (hmode _ (by decide) (by decide))
  have h3 : splitAkm nv i = nv := by
    unfold splitAkm
    rw [if_neg (hmode _ (by decide) (by decide)), if_neg (hmode _ (by decide) (by decide))]
  have h4 : keepRadius nv i = nv := by
    unfold keepRadius
    rcases h with h | h | h
    · rw [show nv.lookup (wlName i "auth_mode") = none from h]
    · rw [show nv.lookup (wlName i "auth_mode") = some (.lit "radius") from h]
      exact if_pos rfl
    · rw [show nv.lookup (wlName i "auth_mode") = some (.lit "none") from h]
      dsimp only
      rw [if_neg (by decide)]
      exact insert_of_lookup h
  unfold convertAuth
  rw [h1, h2, h3, h4]

theorem convertWl_idle {i : ℕ} (h : WlSettled nv i) : convertWl nv i = nv := by
  unfold convertWl
  rcases h with h | ⟨h | h, hmode⟩
  · rw [show nv.lookup (wlName i "wep") = none from h]
  · rw [show nv.lookup (wlName i "wep") = some (.lit "enabled") from h]
    have hwep : convertWep nv i (.lit "enabled") = nv := by
      unfold convertWep
      rw [if_neg (by decide), if_neg (by decide), if_neg (by decide)]
    dsimp only
    rw [hwep]
    exact convertAuth_idle hmode
  · rw [show nv.lookup (wlName i "wep") = some (.lit "disabled") from h]
    have hwep : convertWep nv i (.lit "disabled") = nv := by
      unfold convertWep
      rw [if_neg (by decide), if_neg (by decide), if_pos (by decide)]
      exact insert_of_lookup h
    dsimp only
    rw [hwep]
    exact convertAuth_idle hmode

theorem settles_convertWsec :
    Settles look (fun nv => some (convertWsec nv)) wlTouched (fun nv => ∀ i ∈ List.range maxNvparse, WlSettled nv i)
      ((List.range maxNvparse).map (wlName · "wep") ++ (List.range maxNvparse).map (wlName · "auth_mode")) where
  frame {s s'} h := by
    rw [← Option.some.inj h]
    exact frame_convertWsec
  settles {s s'} h i hi := by
    rw [← Option.some.inj h]
    exact foldl_done convertWl_done convertWl_keep s i hi
  idle h := congrArg some (foldl_idle fun i hi => convertWl_idle (h i hi))
  stable h hs i hi := wlSettled_congr (h _ (List.mem_append_left _ (List.mem_map_of_mem hi)))
    (h _ (List.mem_append_right _ (List.mem_map_of_mem hi))) (hs i hi)

/-! ### The whole conversion -/

/-- **Converting twice** is converting once. -/
theorem conversion_idempotent (L : Libc) (u : Undef) {nv nv' : VarMap}
    (h : convertDeprecated L u nv = some nv') : convertDeprecated L u nv' = some nv' := by
  have h11 := settles_convertStaticRoute.andThen settles_convertWsec (by decide)
  have h10 := settles_convertPppoe.andThen h11 (by decide)
  have h9 := (settles_convertAutofwPort (u := u)).andThen h10 (by decide)
  -- `pppoe_ifname` is among the names that `convert_pppoe` unsets as well
  have h8 := settles_convertPppoeIfname.seq h9 fun hs _ => (h9.settles hs).2.1 _ List.mem_cons_self
  have h7 := (settles_convertMaclist (.lit "wl_mac") (.lit "wl_maclist") (.lit "wl_macmode")).andThen h8
    (by decide)
  have h6 := (settles_convertMaclist (.lit "filter_mac") (.lit "filter_maclist")
    (.lit "filter_macmode")).andThen h7 (by decide)
  have h5 := (settles_convertFilterPort (L := L) (u := u)).andThen h6 (by decide)
  have h4 := (settles_convertFilterProto (L := L) (u := u) (.lit "filter_udp") ipprotoUdp).andThen h5 (by decide)
  have h3 := (settles_convertFilterProto (L := L) (u := u) (.lit "filter_tcp") ipprotoTcp).andThen h4 (by decide)
  have h2 := (settles_convertFilterIp (L := L) (u := u)).andThen h3 (by decide)
  have h1 := (settles_convertForwardProto (L := L) (u := u) (.lit "forward_udp") ipprotoUdp).andThen h2 (by decide)
  have h0 := (settles_convertForwardProto (L := L) (u := u) (.lit "forward_tcp") ipprotoTcp).andThen h1 (by decide)
  exact h0.idempotent h

/-- A forwarded port and a blocked range of addresses. -/
theorem conversion_idempotent_web : ∃ nv',
    convertDeprecated dottedLibc .nothing
      (vars [("forward_tcp", "80-80>10.0.0.2:8080-8080"), ("filter_ip", "10.0.0.5-10.0.0.9")]) = some nv' ∧
    convertDeprecated dottedLibc .nothing nv' = some nv' := by
  have hsome : (convertDeprecated dottedLibc .nothing
      (vars [("forward_tcp", "80-80>10.0.0.2:8080-8080"), ("filter_ip", "10.0.0.5-10.0.0.9")])).isSome = true := by
    rw [isSome_convertDeprecated]
    decide
  obtain ⟨nv', h⟩ := Option.isSome_iff_exists.mp hsome
  exact ⟨nv', h, conversion_idempotent _ _ h⟩

end Nvparse
end Router
