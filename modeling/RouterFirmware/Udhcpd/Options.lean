/-
# The options of a DHCP packet

`udhcpd/options.c`. A packet is put together by `add_option_string`, which finds the end of the options there are and
writes one more, or none if it would not fit; it is taken apart by `get_option`, which walks over the options and, where
the packet says so, over the fields `file` and `sname` as well.

`get_option_added`: what has been added, and had room, is what is found. An offset counts from the start of the packet,
of which `options` is the last field; the byte behind it is one that a walk can look at.
-/
import RouterFirmware.Lib.CMem

namespace Router
namespace Udhcpd

open CMem

/-! ### The functions -/

/-- `DHCP_PADDING`. -/
def dhcpPadding : UInt8 := 0x00

/-- `DHCP_OPTION_OVER`. -/
def dhcpOptionOver : UInt8 := 0x34

/-- `DHCP_END`. -/
def dhcpEnd : UInt8 := 0xff

/-- The fields of a packet that hold options. -/
inductive Field where
  | options
  | file
  | sname
deriving DecidableEq

/-- Where a field stands in `struct dhcpMessage`. -/
def Field.offset : Field → ℕ
  | options => 240
  | file => 108
  | sname => 44

/-- How many bytes it has. -/
def Field.length : Field → ℕ
  | options => 308
  | file => 128
  | sname => 64

/-- The field that follows, if the packet says so in `over`. -/
def Field.next (fields : UInt8) : Field → Option Field
  | options => if fields &&& 1 ≠ 0 then some file else none
  | file => if fields &&& 2 ≠ 0 then some sname else none
  | sname => none

/-- How many fields may follow. -/
def Field.left : Field → ℕ
  | options => 2
  | file => 1
  | sname => 0

theorem Field.left_next {fields : UInt8} {f g : Field} (h : f.next fields = some g) : g.left < f.left := by
  cases f with
  | options =>
    simp only [Field.next] at h
    split_ifs at h
    cases h
    decide
  | file =>
    simp only [Field.next] at h
    split_ifs at h
    cases h
    decide
  | sname => cases h

/-- The loop of `get_option`. -/
def getLoop (packet : Mem) (code fields : UInt8) (curr : Field) (i : ℕ) : Option ℕ :=
  if i ≥ curr.length then none
  else
    let ptr := curr.offset + i
    if packet ptr = code then
      if i + 1 + (packet (ptr + 1)).toNat ≥ curr.length then none else some (ptr + 2)
    else if packet ptr = dhcpPadding then getLoop packet code fields curr (i + 1)
    else if packet ptr = dhcpOptionOver then
      if i + 1 + (packet (ptr + 1)).toNat ≥ curr.length then none
      -- the length is that of the first option of the field
      else getLoop packet code (packet (ptr + 3)) curr (i + ((packet (curr.offset + 1)).toNat + 2))
    else if packet ptr = dhcpEnd then
      match _h : curr.next fields with
      | some curr' => getLoop packet code fields curr' 0
      | none => none
    else getLoop packet code fields curr (i + ((packet (ptr + 1)).toNat + 2))
termination_by (curr.left, curr.length - i)
decreasing_by
  · exact Prod.Lex.right _ (by omega)
  · exact Prod.Lex.right _ (by omega)
  · exact Prod.Lex.left _ _ (Field.left_next _h)
  · exact Prod.Lex.right _ (by omega)

/-- `get_option(packet, code)`: the offset of the data. -/
def getOption (packet : Mem) (code : UInt8) : Option ℕ := getLoop packet code 0 .options 0

/-- The loop of `end_option`. -/
def endLoop (packet : Mem) : ℕ → ℕ → Option ℕ
  | 0, _ => none
  | fuel + 1, i =>
    let ptr := Field.options.offset + i
    if packet ptr = dhcpEnd then some i
    else if packet ptr = dhcpPadding then endLoop packet fuel (i + 1)
    else endLoop packet fuel (i + ((packet (ptr + 1)).toNat + 2))

/-- An option string: code, length and data. -/
structure OptionString where
  code : UInt8
  data : List UInt8
  short : data.length < 256

/-- As it stands in memory. -/
def OptionString.bytes (o : OptionString) : List UInt8 := o.code :: UInt8.ofNat o.data.length :: o.data

/-- `add_option_string(optionptr, string)`: what it returns, and the packet. -/
def addOptionString (o : OptionString) (fuel : ℕ) (packet : Mem) : Option (ℕ × Mem) :=
  (endLoop packet fuel 0).map fun stop =>
    if stop + o.data.length + 2 + 1 ≥ 308 then (0, packet)
    else (o.data.length + 2, write (write packet (Field.options.offset + stop) o.bytes)
      (Field.options.offset + (stop + o.data.length + 2)) [dhcpEnd])

/-- `init_header(packet, type)` leaves no option. -/
def noOptions (packet : Mem) : Mem := write packet Field.options.offset [dhcpEnd]

/-- Option strings that are added one after the other. -/
def addOptions (fuel : ℕ) : List OptionString → Mem → Option Mem
  | [], packet => some packet
  | o :: rest, packet => (addOptionString o fuel packet).bind fun r => addOptions fuel rest r.2

/-! ### What a packet holds -/

/-- The option strings, one behind the other. -/
def area (opts : List OptionString) : List UInt8 := opts.flatMap OptionString.bytes

/-- Those of the option strings that have room, where `used` bytes are taken. -/
def fitting : ℕ → List OptionString → List OptionString
  | _, [] => []
  | used, o :: rest =>
    if used + o.data.length + 2 + 1 ≥ 308 then fitting used rest else o :: fitting (used + o.data.length + 2) rest

/-- An option that is data, not a mark of its own. -/
def OptionString.Plain (o : OptionString) : Prop := o.code ≠ dhcpPadding ∧ o.code ≠ dhcpOptionOver ∧ o.code ≠ dhcpEnd

/-- A lookup finds the option: its data stand where it points to, with their length in front. -/
def Finds (packet : Mem) (code : UInt8) : Option OptionString → Prop
  | none => getOption packet code = none
  | some o => ∃ p, getOption packet code = some p ∧ Holds packet p o.data ∧ packet (p - 1) = UInt8.ofNat o.data.length

variable {packet : Mem} {o : OptionString} {opts rest : List OptionString} {code : UInt8}

theorem OptionString.length_bytes (o : OptionString) : o.bytes.length = o.data.length + 2 := rfl

theorem OptionString.length_toNat (o : OptionString) : (UInt8.ofNat o.data.length).toNat = o.data.length := by
  rw [UInt8.toNat_ofNat', Nat.mod_eq_of_lt o.short]

theorem area_cons : area (o :: rest) = o.bytes ++ area rest := rfl

theorem area_append : area (opts ++ rest) = area opts ++ area rest := List.flatMap_append

/-- The first of the options that stand at an offset. -/
theorem holds_bytes {p : ℕ} {l : List UInt8} (h : Holds packet p (o.bytes ++ l)) :
    packet p = o.code ∧ packet (p + 1) = UInt8.ofNat o.data.length ∧ Holds packet (p + 2) o.data ∧
      Holds packet (p + (o.data.length + 2)) l := by
  obtain ⟨h1, h2⟩ := holds_append.mp h
  exact ⟨h1.1, h1.2.1, h1.2.2, h2⟩

theorem endLoop_eq : ∀ {opts : List OptionString} {fuel i : ℕ}, (∀ o ∈ opts, o.Plain) → opts.length < fuel →
    Holds packet (Field.options.offset + i) (area opts ++ [dhcpEnd]) →
      endLoop packet fuel i = some (i + (area opts).length)
  | [], fuel + 1, i, _, _, h => by
    rw [endLoop, if_pos h.1]
    rfl
  | o :: opts, fuel + 1, i, hplain, hfuel, h => by
    rw [area_cons, List.append_assoc] at h
    obtain ⟨hcode, hlen, -, hrest⟩ := holds_bytes h
    obtain ⟨h1, -, h3⟩ := hplain o List.mem_cons_self
    have hnext := endLoop_eq (i := i + (o.data.length + 2)) (fun o ho => hplain o (List.mem_cons_of_mem _ ho))
      (Nat.lt_of_succ_lt_succ hfuel) (by rwa [← Nat.add_assoc])
    rw [endLoop, hcode, if_neg h3, if_neg h1, hlen, o.length_toNat, hnext, area_cons, List.length_append, o.length_bytes]
    congr 1
    omega

/-- An option string that is added. -/
theorem addOptionString_holds {fuel : ℕ} (hplain : ∀ o ∈ opts, o.Plain) (hfuel : opts.length < fuel)
    (h : Holds packet Field.options.offset (area opts ++ [dhcpEnd])) :
    ∃ r, addOptionString o fuel packet = some r ∧ Holds r.2 Field.options.offset
      (area (opts ++ fitting (area opts).length [o]) ++ [dhcpEnd]) := by
  have hend := endLoop_eq (i := 0) hplain hfuel h
  rw [Nat.zero_add] at hend
  unfold addOptionString fitting
  rw [hend, Option.map_some]
  split_ifs with hfull
  · refine ⟨_, rfl, ?_⟩
    rwa [fitting, List.append_nil]
  · refine ⟨_, rfl, ?_⟩
    obtain ⟨hold, -⟩ := holds_append.mp h
    rw [fitting, area_append, holds_append, holds_append, List.length_append]
    refine ⟨⟨?_, ?_⟩, ?_⟩
    · exact holds_write_of_le (holds_write_of_le hold le_rfl) (by omega)
    · rw [area_cons, show area [] = [] from rfl, List.append_nil]
      exact holds_write_of_le (holds_write_same _ _ _) (by rw [o.length_bytes]; omega)
    · rw [area_cons, show area [] = [] from rfl, List.append_nil, o.length_bytes, Nat.add_assoc _ _ 2]
      exact holds_write_same _ _ _

theorem addOptions_holds {fuel : ℕ} : ∀ {rest opts : List OptionString} {packet : Mem},
    (∀ o ∈ opts ++ rest, o.Plain) → (opts ++ rest).length < fuel →
      Holds packet Field.options.offset (area opts ++ [dhcpEnd]) →
        ∃ packet', addOptions fuel rest packet = some packet' ∧
          Holds packet' Field.options.offset (area (opts ++ fitting (area opts).length rest) ++ [dhcpEnd])
  | [], opts, packet, _, _, h => ⟨packet, rfl, by rwa [fitting, List.append_nil]⟩
  | o :: rest, opts, packet, hplain, hfuel, h => by
    have hlt : opts.length < fuel := by
      rw [List.length_append, List.length_cons] at hfuel
      omega
    obtain ⟨r, hr, h'⟩ : ∃ r, addOptionString o fuel packet = some r ∧ Holds r.2 Field.options.offset
        (area (opts ++ fitting (area opts).length [o]) ++ [dhcpEnd]) :=
      addOptionString_holds (fun o ho => hplain o (List.mem_append_left _ ho)) hlt h
    rw [addOptions, hr, Option.bind_some]
    unfold fitting at h' ⊢
    split_ifs at h' ⊢ with hfull
    · rw [fitting, List.append_nil] at h'
      refine addOptions_holds (fun o ho => hplain o ?_) ?_ h'
      · exact (List.mem_append.mp ho).elim (List.mem_append_left _) fun ho =>
          List.mem_append_right _ (List.mem_cons_of_mem _ ho)
      · simp only [List.length_append, List.length_cons] at hfuel ⊢
        omega
    · rw [fitting] at h'
      have hplain' : ∀ o' ∈ opts ++ [o] ++ rest, o'.Plain := by simpa using hplain
      have hmore := addOptions_holds hplain' (by simpa using hfuel) h'
      have hlen : (area (opts ++ [o])).length = (area opts).length + o.data.length + 2 := by
        rw [area_append, area_cons, show area [] = [] from rfl, List.append_nil, List.length_append, o.length_bytes,
          Nat.add_assoc]
      rw [hlen, List.append_assoc, List.singleton_append] at hmore
      exact hmore

theorem mem_of_fitting : ∀ {rest : List OptionString} {used : ℕ}, o ∈ fitting used rest → o ∈ rest
  | [], _, h => h
  | _ :: rest, used, h => by
    unfold fitting at h
    split_ifs at h
    · exact List.mem_cons_of_mem _ (mem_of_fitting h)
    · rcases List.mem_cons.mp h with rfl | h
      · exact List.mem_cons_self
      · exact List.mem_cons_of_mem _ (mem_of_fitting h)

theorem length_fitting : ∀ {rest : List OptionString} {used : ℕ}, used < 308 → used + (area (fitting used rest)).length < 308
  | [], used, h => h
  | o :: rest, used, h => by
    unfold fitting
    split_ifs with hfull
    · exact length_fitting h
    · have hused : used + o.data.length + 2 < 308 := by omega
      have hlen : _ < 308 := @length_fitting rest _ hused
      rw [area_cons, List.length_append, o.length_bytes]
      omega

/-- The walk over options that are data. -/
theorem getLoop_eq : ∀ {opts : List OptionString} {i : ℕ}, (∀ o ∈ opts, o.Plain) → code ≠ dhcpEnd →
    i + (area opts).length < 308 → Holds packet (Field.options.offset + i) (area opts ++ [dhcpEnd]) →
      match opts.find? fun o => o.code = code with
      | none => getLoop packet code 0 .options i = none
      | some o => ∃ p, getLoop packet code 0 .options i = some p ∧ Holds packet p o.data ∧
          packet (p - 1) = UInt8.ofNat o.data.length
  | [], i, _, hcode, hi, h => by
    have hlt : ¬i ≥ Field.options.length := Nat.not_le.mpr hi
    rw [List.find?_nil, getLoop, if_neg hlt, if_neg (by rw [h.1]; exact hcode.symm), if_neg (by rw [h.1]; decide),
      if_neg (by rw [h.1]; decide), if_pos h.1]
    rfl
  | o :: opts, i, hplain, hcode, hi, h => by
    rw [area_cons, List.append_assoc] at h
    obtain ⟨hc, hlen, hdata, hrest⟩ := holds_bytes h
    obtain ⟨h1, h2, h3⟩ := hplain o List.mem_cons_self
    rw [area_cons, List.length_append, o.length_bytes] at hi
    have hlt : ¬i ≥ Field.options.length := Nat.not_le.mpr (show i < 308 by omega)
    by_cases heq : o.code = code
    · rw [List.find?_cons_of_pos (by simpa using heq)]
      refine ⟨_, ?_, hdata, ?_⟩
      · rw [getLoop, if_neg hlt, if_pos (hc.trans heq), hlen, o.length_toNat, if_neg]
        exact Nat.not_le.mpr (show i + 1 + o.data.length < 308 by omega)
      · exact hlen
    · rw [List.find?_cons_of_neg (by simpa using heq)]
      have hrest' : Holds packet (Field.options.offset + (i + (o.data.length + 2))) (area opts ++ [dhcpEnd]) := by
        rwa [← Nat.add_assoc]
      have hnext := getLoop_eq (fun o ho => hplain o (List.mem_cons_of_mem _ ho)) hcode (by omega) hrest'
      have hstep : getLoop packet code 0 .options i = getLoop packet code 0 .options (i + (o.data.length + 2)) := by
        rw [getLoop, if_neg hlt, if_neg (by rw [hc]; exact heq), if_neg (by rw [hc]; exact h1),
          if_neg (by rw [hc]; exact h2), if_neg (by rw [hc]; exact h3), hlen, o.length_toNat]
      rwa [hstep]

/-- **What is put into a packet is found in it.** Of the option strings that a packet without options is given, those
that have room are in it, and a lookup finds the first with its code, with all of its data, or none if there is none.
(The marks for padding, for the end and for more fields are not options of their own.) -/
theorem getOption_added (packet : Mem) (opts : List OptionString) (hplain : ∀ o ∈ opts, o.Plain) {fuel : ℕ}
    (hfuel : opts.length < fuel) :
    ∃ packet', addOptions fuel opts (noOptions packet) = some packet' ∧
      ∀ code, code ≠ dhcpEnd → Finds packet' code ((fitting 0 opts).find? fun o => o.code = code) := by
  have hnone : Holds (noOptions packet) Field.options.offset (area [] ++ [dhcpEnd]) :=
    holds_write_same packet Field.options.offset [dhcpEnd]
  obtain ⟨packet', hadd, h⟩ := addOptions_holds hplain hfuel hnone
  refine ⟨packet', hadd, fun code hcode => ?_⟩
  have hfit : ∀ o ∈ fitting 0 opts, o.Plain := fun o ho => hplain o (mem_of_fitting ho)
  have hget := getLoop_eq (i := 0) hfit hcode (length_fitting (by decide)) h
  cases hfind : (fitting 0 opts).find? fun o => o.code = code with
  | none =>
    rw [hfind] at hget
    exact hget
  | some o =>
    rw [hfind] at hget
    exact hget

/-- Of a request for an address, the address is found, and no host name. -/
theorem getOption_added_request : ∃ packet',
    addOptions 3 [⟨0x35, [3], by decide⟩, ⟨0x32, [192, 168, 1, 2], by decide⟩] (noOptions fun _ => 0) = some packet' ∧
      (∃ p, getOption packet' 0x32 = some p ∧ Holds packet' p [192, 168, 1, 2]) ∧ getOption packet' 0x0c = none := by
  obtain ⟨packet', hadd, hfinds⟩ := getOption_added (fun _ => 0)
    [⟨0x35, [3], by decide⟩, ⟨0x32, [192, 168, 1, 2], by decide⟩]
    (by simp [OptionString.Plain, dhcpPadding, dhcpOptionOver, dhcpEnd]) (show 2 < 3 by decide)
  obtain ⟨p, hp, hdata, -⟩ := hfinds 0x32 (by decide)
  exact ⟨packet', hadd, ⟨p, hp, hdata⟩, hfinds 0x0c (by decide)⟩

end Udhcpd
end Router
