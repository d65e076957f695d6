/-
# An address belongs to one client at a time

No two records of the table name the same address, or the same client, whatever the server has been sent
(`table_of_run`). A lease that has not run out is left alone by every packet of another client, and its address is
neither offered to another client nor acknowledged (`ack_exclusive_of_run`); what the server hands out is in its range
or was in its files (`addresses_of_run`).

Each function of the server is taken once, by what it does to the table (`Step`): it keeps the records apart, it
leaves the leases of the other clients alone, and it puts no address in that is not its to give.
-/
import RouterFirmware.Lib.Keyed
import RouterFirmware.Udhcpd.Leases

namespace Router
namespace Udhcpd

open CMem
open Igd.IpConfig (ntohl)

variable {n : ℕ} {cfg : ServerConfig} {env : Env} {r : Request} {now a e : Word} {c : Chaddr} {m : List UInt8}
  {t t' t'' : Table n} {i j : Fin n}

/-! ### The statements -/

/-- No two records have the same address, or the same hardware address. -/
structure Unique (t : Table n) : Prop where
  yiaddr : Keyed 0 fun i => (t i).yiaddr
  chaddr : Keyed blankChaddr fun i => (t i).chaddr

/-- An address and its client, in an answer that gives it. -/
def Reply.grant : Reply → Option (Chaddr × Word)
  | .offer c a _ | .ack c a _ => some (c, a)
  | .nak _ | .inform _ => none

/-- A packet, what the server does not decide of its handling, and what it answers. -/
structure Label where
  env : Env
  packet : CMem.Mem
  reply : Option Reply

/-- What the server reads of the packet. -/
def Label.request (cfg : ServerConfig) (l : Label) : Request := Request.ofPacket cfg.endian l.packet

/-- The server handles a packet. -/
def Handles (cfg : ServerConfig) (t : Table n) (l : Label) (t' : Table n) : Prop :=
  handle cfg l.env (l.request cfg) t = (l.reply, t')

/-- The server runs from its start over these packets. -/
def Runs (cfg : ServerConfig) (now : Word) (statics : List (Chaddr × Word)) (file : List DhcpOfferedAddr) :
    List Label → Table n → Prop :=
  Run.Trace (Handles cfg) (start cfg now statics file)

/-! ### The functions of the table -/

theorem comp_update {α β : Type*} (g : α → β) (t : Fin n → α) (l : α) :
    (fun k => g (Function.update t i l k)) = Function.update (fun k => g (t k)) i (g l) := by
  funext k
  rcases eq_or_ne k i with rfl | hk
  · simp
  · simp [hk]

theorem Unique.slot (h : Unique t) (hi : (t i).yiaddr ≠ 0) (hij : (t i).yiaddr = (t j).yiaddr) : i = j :=
  h.yiaddr i j hi hij

theorem Unique.client (h : Unique t) (hi : (t i).chaddr ≠ blankChaddr) (hij : (t i).chaddr = (t j).chaddr) : i = j :=
  h.chaddr i j hi hij

/-- A record written to a slot. -/
theorem unique_update {l : DhcpOfferedAddr} (h : Unique t) (hy : ∀ k, k ≠ i → l.yiaddr ≠ 0 → (t k).yiaddr ≠ l.yiaddr)
    (hch : ∀ k, k ≠ i → l.chaddr ≠ blankChaddr → (t k).chaddr ≠ l.chaddr) : Unique (Function.update t i l) := by
  constructor
  · rw [comp_update DhcpOfferedAddr.yiaddr]
    exact h.yiaddr.update hy
  · rw [comp_update DhcpOfferedAddr.chaddr]
    exact h.chaddr.update hch

theorem mac_of_findLeaseByChaddr (h : findLeaseByChaddr c t = some i) : (t i).chaddr.mac = c.mac := by
  simpa using List.find?_some h

theorem yiaddr_of_findLeaseByYiaddr (h : findLeaseByYiaddr a t = some i) : (t i).yiaddr = a := by
  simpa using List.find?_some h

theorem findLeaseByYiaddr_eq_none_iff : findLeaseByYiaddr a t = none ↔ ∀ i, (t i).yiaddr ≠ a := by
  simp [findLeaseByYiaddr]

/-- An address that is available has no lease, or one that has run out. -/
theorem of_available {expired : Bool} (hu : Unique t) (h : available now expired a t = true) (ha : a ≠ 0)
    (hi : (t i).yiaddr = a) : leaseExpired now (t i) = true := by
  unfold available at h
  split at h
  · next hfind => exact absurd hi (findLeaseByYiaddr_eq_none_iff.mp hfind i)
  · next j hfind =>
    have hj := yiaddr_of_findLeaseByYiaddr hfind
    have hij : i = j := hu.slot (hi ▸ ha) (hi.trans hj.symm)
    rw [hij]
    exact (Bool.and_eq_true_iff.mp h).2

theorem cleared_eq_or (c : Chaddr) (a : Word) (l : DhcpOfferedAddr) :
    cleared c a l = l ∨ cleared c a l = zeroed ∧ clears c a l = true := by
  unfold cleared
  split_ifs with h
  · exact .inr ⟨rfl, h.1⟩
  · exact .inl rfl

theorem cleared_of_yiaddr {l : DhcpOfferedAddr} (h : (cleared c a l).yiaddr ≠ 0) : cleared c a l = l :=
  (cleared_eq_or c a l).resolve_right fun hz => h (by rw [hz.1]; rfl)

theorem cleared_of_chaddr {l : DhcpOfferedAddr} (h : (cleared c a l).chaddr ≠ blankChaddr) : cleared c a l = l :=
  (cleared_eq_or c a l).resolve_right fun hz => h (by rw [hz.1]; rfl)

/-- The loop of `oldest_expired_lease`: what it finds has run out, and it finds something if there is anything. -/
theorem foldl_oldest (t : Table n) : ∀ (l : List (Fin n)) (x : Word) (o : Option (Fin n)),
    let res := (l.foldl
      (fun (p : Word × Option (Fin n)) i => if p.1 > (t i).expires then ((t i).expires, some i) else p) (x, o)).2
    (∀ i, res = some i → o = some i ∨ (t i).expires < x) ∧
      (res = none → o = none ∧ ∀ i ∈ l, ¬(t i).expires < x)
  | [], x, o => ⟨fun _ h => .inl h, fun h => ⟨h, by simp⟩⟩
  | k :: l, x, o => by
    simp only [List.foldl_cons]
    by_cases hk : x > (t k).expires
    · rw [if_pos hk]
      obtain ⟨h1, h2⟩ := foldl_oldest t l (t k).expires (some k)
      refine ⟨fun i hi => .inr ?_, fun hnone => absurd (h2 hnone).1 (Option.some_ne_none k)⟩
      rcases h1 i hi with heq | hlt
      · cases heq
        exact hk
      · exact BitVec.lt_trans hlt hk
    · rw [if_neg hk]
      obtain ⟨h1, h2⟩ := foldl_oldest t l x o
      refine ⟨h1, fun hnone => ⟨(h2 hnone).1, fun i hi => ?_⟩⟩
      rcases List.mem_cons.mp hi with rfl | hi
      · exact hk
      · exact (h2 hnone).2 i hi

theorem expires_of_oldest (h : oldestExpiredLease now t = some i) : (t i).expires < now :=
  ((foldl_oldest t (List.finRange n) now none).1 i h).resolve_left (by simp)

theorem oldest_of_expires (h : (t i).expires < now) : ∃ j, oldestExpiredLease now t = some j := by
  refine Option.isSome_iff_exists.mp (Option.isSome_iff_ne_none.mpr fun hnone => ?_)
  exact ((foldl_oldest t (List.finRange n) now none).2 hnone).2 i (List.mem_finRange i) h

/-- What `add_lease` does: it clears the records of the client and of the address, and then, unless there was a static
one among them, writes the lease over one that has run out, if there is any. -/
theorem addLease_cases (now : Word) (c : Chaddr) (a e : Word) (t : Table n) :
    (∃ k, clears c a (t k) = true ∧ (t k).expires = forever ∧ addLease now c a e t = (some k, fun i => cleared c a (t i))) ∨
      (∀ i, clears c a (t i) = true → (t i).expires ≠ forever) ∧
        ((∀ i, ¬(cleared c a (t i)).expires < now) ∧ addLease now c a e t = (none, fun i => cleared c a (t i)) ∨
          ∃ j, (cleared c a (t j)).expires < now ∧ addLease now c a e t = (some j,
            Function.update (fun i => cleared c a (t i)) j
              { cleared c a (t j) with chaddr := c, yiaddr := a, expires := if e = forever then forever else now + e })) := by
  unfold addLease clearLease
  cases hstatic : (List.finRange n).reverse.find? fun i => clears c a (t i) && (t i).expires = forever with
  | some k =>
    have hk : (clears c a (t k) && decide ((t k).expires = forever)) = true := by simpa using List.find?_some hstatic
    obtain ⟨hclears, hforever⟩ := Bool.and_eq_true_iff.mp hk
    exact .inl ⟨k, hclears, of_decide_eq_true hforever, rfl⟩
  | none =>
    have hnone : ∀ i, clears c a (t i) = true → (t i).expires ≠ forever := fun i hi hf =>
      List.find?_eq_none.mp hstatic i (List.mem_reverse.mpr (List.mem_finRange i)) (by simp [hi, hf])
    dsimp only
    cases hold : oldestExpiredLease now fun i => cleared c a (t i) with
    | none =>
      refine .inr ⟨hnone, .inl ⟨fun i hi => ?_, rfl⟩⟩
      obtain ⟨j, hj⟩ := oldest_of_expires (t := fun i => cleared c a (t i)) hi
      exact Option.some_ne_none j (hj.symm.trans hold)
    | some j => exact .inr ⟨hnone, .inr ⟨j, expires_of_oldest hold, rfl⟩⟩

/-- The table after `add_lease`: cleared, with one record at most written. -/
theorem addLease_table (now : Word) (c : Chaddr) (a e : Word) (t : Table n) :
    (addLease now c a e t).2 = (fun i => cleared c a (t i)) ∨
      (∀ i, clears c a (t i) = true → (t i).expires ≠ forever) ∧ ∃ j, (cleared c a (t j)).expires < now ∧
        (addLease now c a e t).2 = Function.update (fun i => cleared c a (t i)) j
          { cleared c a (t j) with chaddr := c, yiaddr := a, expires := if e = forever then forever else now + e } := by
  rcases addLease_cases now c a e t with ⟨k, -, -, heq⟩ | ⟨hstatic, ⟨-, heq⟩ | ⟨j, hj, heq⟩⟩
  · exact .inl (by rw [heq])
  · exact .inl (by rw [heq])
  · exact .inr ⟨hstatic, j, hj, by rw [heq]⟩

theorem ne_of_cleared {l : DhcpOfferedAddr} (hstatic : clears c a l = true → l.expires ≠ forever) :
    (a ≠ 0 → (cleared c a l).yiaddr ≠ a) ∧ (c ≠ blankChaddr → (cleared c a l).chaddr ≠ c) := by
  have hz : clears c a l = true → cleared c a l = zeroed := fun h => if_pos ⟨h, hstatic h⟩
  constructor
  · intro ha hl
    have heq := cleared_of_yiaddr (hl ▸ ha)
    have hla : l.yiaddr = a := heq ▸ hl
    have hclears : clears c a l = true := by
      unfold clears
      rw [hla, decide_eq_true ha, decide_eq_true rfl]
      exact Bool.or_true _
    rw [hz hclears] at hl
    exact ha hl.symm
  · intro hc hl
    have heq := cleared_of_chaddr (hl ▸ hc)
    have hlc : l.chaddr = c := heq ▸ hl
    have hclears : clears c a l = true := by
      unfold clears
      rw [hlc, decide_eq_true hc, decide_eq_true rfl]
      exact Bool.true_or _
    rw [hz hclears] at hl
    exact hc hl.symm

theorem unique_addLease (h : Unique t) : Unique (addLease now c a e t).2 := by
  have hcleared : Unique fun i => cleared c a (t i) :=
    ⟨h.yiaddr.erase fun i hi => by rw [cleared_of_yiaddr hi], h.chaddr.erase fun i hi => by rw [cleared_of_chaddr hi]⟩
  rcases addLease_table now c a e t with heq | ⟨hstatic, j, -, heq⟩
  · rwa [heq]
  · rw [heq]
    exact unique_update hcleared (fun i _ hne => (ne_of_cleared (hstatic i)).1 hne)
      fun i _ hne => (ne_of_cleared (hstatic i)).2 hne

theorem yiaddr_addLease (h : ((addLease now c a e t).2 i).yiaddr ≠ 0) :
    ((addLease now c a e t).2 i).yiaddr = a ∨ ∃ j, (t j).yiaddr = ((addLease now c a e t).2 i).yiaddr := by
  have hkeep : (cleared c a (t i)).yiaddr ≠ 0 → ∃ j, (t j).yiaddr = (cleared c a (t i)).yiaddr := fun h =>
    ⟨i, by rw [cleared_of_yiaddr h]⟩
  rcases addLease_table now c a e t with heq | ⟨-, j, -, heq⟩
  · rw [heq] at h ⊢
    exact .inr (hkeep h)
  · rw [heq] at h ⊢
    rcases eq_or_ne i j with rfl | hij
    · rw [Function.update_self]
      exact .inl rfl
    · rw [Function.update_of_ne hij] at h ⊢
      exact .inr (hkeep h)

/-! ### What a function does to the table -/

/-- The function keeps the records apart, leaves alone the leases of clients other than `m` that have not run out, and
puts no address in that is not its to give. -/
structure Step (cfg : ServerConfig) (now : Word) (m : List UInt8) (t t' : Table n) : Prop where
  unique : Unique t → Unique t'
  others : Unique t → ∀ i, (t i).chaddr.mac ≠ m → (t i).yiaddr ≠ 0 → leaseExpired now (t i) = false → t' i = t i
  addresses : ∀ i, (t' i).yiaddr ≠ 0 → inRange cfg (t' i).yiaddr = true ∨ ∃ j, (t j).yiaddr = (t' i).yiaddr

theorem Step.refl (t : Table n) : Step cfg now m t t := ⟨id, fun _ _ _ _ _ => rfl, fun i _ => .inr ⟨i, rfl⟩⟩

theorem Step.trans (h : Step cfg now m t t') (h' : Step cfg now m t' t'') : Step cfg now m t t'' where
  unique hu := h'.unique (h.unique hu)
  others hu i hm ha he := by
    have heq := h.others hu i hm ha he
    rw [h'.others (h.unique hu) i (by rwa [heq]) (by rwa [heq]) (by rwa [heq]), heq]
  addresses i hi := by
    rcases h'.addresses i hi with hr | ⟨j, hj⟩
    · exact .inl hr
    · rw [← hj] at hi ⊢
      exact h.addresses j hi

/-- An address that client `m` may be given: no other client holds it. -/
def Free (now : Word) (m : List UInt8) (t : Table n) (a : Word) : Prop :=
  ∀ i, (t i).yiaddr = a → (t i).chaddr.mac = m ∨ leaseExpired now (t i) = true

theorem step_addLease (hc : c = blankChaddr ∨ c.mac = m) (ha : Unique t → a ≠ 0 → Free now m t a)
    (hr : a ≠ 0 → inRange cfg a = true ∨ ∃ j, (t j).yiaddr = a) : Step cfg now m t (addLease now c a e t).2 := by
  refine ⟨unique_addLease, fun hu i hm hi he => ?_, fun i hi => ?_⟩
  · have hclears : clears c a (t i) = false := by
      have h1 : ¬(c ≠ blankChaddr ∧ (t i).chaddr = c) := fun ⟨hne, heq⟩ =>
        hm (by rw [heq]; exact hc.resolve_left hne)
      have h2 : ¬(a ≠ 0 ∧ (t i).yiaddr = a) := fun ⟨hne, heq⟩ =>
        (ha hu hne i heq).elim hm fun hexp => Bool.false_ne_true (he ▸ hexp)
      simp only [clears, Bool.or_eq_false_iff, Bool.and_eq_false_iff, decide_eq_false_iff_not]
      exact ⟨not_and_or.mp h1, not_and_or.mp h2⟩
    have hsame : cleared c a (t i) = t i := by simp [cleared, hclears]
    rcases addLease_table now c a e t with heq | ⟨-, j, hj, heq⟩
    · rw [heq]
      exact hsame
    · have hij : i ≠ j := by
        rintro rfl
        rw [hsame] at hj
        exact absurd (decide_eq_true hj) (by rw [← leaseExpired, he]; exact Bool.false_ne_true)
      rw [heq, Function.update_of_ne hij]
      exact hsame
  · rcases yiaddr_addLease hi with heq | hold
    · rw [heq] at hi ⊢
      exact hr hi
    · exact .inr hold

/-- The record of the client itself, with its address as it was. -/
theorem step_update {l : DhcpOfferedAddr} (hl : (t i).chaddr.mac = m ∨ leaseExpired now (t i) = true)
    (hy : l.yiaddr = (t i).yiaddr) (hch : l.chaddr = (t i).chaddr ∨ l.chaddr = blankChaddr) :
    Step cfg now m t (Function.update t i l) := by
  refine ⟨fun hu => unique_update hu ?_ ?_, fun _ k hm _ he => ?_, fun k hk => .inr ⟨k, ?_⟩⟩
  · intro k hk hne heq
    rw [hy] at hne heq
    exact hk (hu.slot (heq.symm ▸ hne) heq)
  · intro k hk hne heq
    have hl := hch.resolve_right hne
    rw [hl] at hne heq
    exact hk (hu.client (heq.symm ▸ hne) heq)
  · have hki : k ≠ i := by
      rintro rfl
      exact hl.elim hm fun h => Bool.false_ne_true (he ▸ h)
    rw [Function.update_of_ne hki]
  · rcases eq_or_ne k i with rfl | hki
    · rw [Function.update_self, hy]
    · rw [Function.update_of_ne hki]

/-! ### The functions of the server -/

theorem step_checkIp {arp : Word → Bool} (ha : Unique t → a ≠ 0 → Free env.now m t a) (hr : inRange cfg a = true) :
    Step cfg env.now m t (checkIp cfg env.now arp a t).2 := by
  unfold checkIp
  split_ifs
  · exact step_addLease (.inl rfl) ha fun _ => .inl hr
  · exact Step.refl t

theorem free_of_available {expired : Bool} (hu : Unique t) (h : available now expired a t = true) (ha : a ≠ 0) :
    Free now m t a := fun _ hi => .inr (of_available hu h ha hi)

theorem ntohl_ntohl (x : Word) : ntohl cfg.endian (ntohl cfg.endian x) = x := by
  cases cfg.endian
  · rfl
  · exact Octets.swap_swap x

theorem inRange_ntohl {k : ℕ} (hlow : (ntohl cfg.endian cfg.start).toNat ≤ k) (hhigh : k ≤ (ntohl cfg.endian cfg.last).toNat) :
    inRange cfg (ntohl cfg.endian (BitVec.ofNat 32 k)) = true := by
  have hk : (BitVec.ofNat 32 k).toNat = k := by
    rw [BitVec.toNat_ofNat, Nat.mod_eq_of_lt (lt_of_le_of_lt hhigh (BitVec.isLt _))]
  unfold inRange
  rw [ntohl_ntohl, Bool.and_eq_true, decide_eq_true_iff, decide_eq_true_iff, ge_iff_le, BitVec.le_def, BitVec.le_def, hk]
  exact ⟨hlow, hhigh⟩

/-- The loop of `find_address`: what it finds has no lease, or one that has run out. -/
theorem addressLoop_spec {expired : Bool} : ∀ {l : List ℕ} {t : Table n},
    (∀ k ∈ l, (ntohl cfg.endian cfg.start).toNat ≤ k ∧ k ≤ (ntohl cfg.endian cfg.last).toNat) →
    Step cfg env.now m t (addressLoop cfg env expired l t).2 ∧ ((addressLoop cfg env expired l t).1 ≠ 0 →
      inRange cfg (addressLoop cfg env expired l t).1 = true ∧
        available env.now expired (addressLoop cfg env expired l t).1 (addressLoop cfg env expired l t).2 = true)
  | [], t, _ => ⟨Step.refl t, fun h => absurd rfl h⟩
  | k :: l, t, hl => by
    have hrest := fun k' hk' => hl k' (List.mem_cons_of_mem k hk')
    obtain ⟨hlow, hhigh⟩ := hl k List.mem_cons_self
    have hr := inRange_ntohl hlow hhigh
    unfold addressLoop
    dsimp only
    split_ifs with hedge hav htaken
    · exact addressLoop_spec hrest
    · have hstep : Step cfg env.now m t (checkIp cfg env.now (env.arp expired) (ntohl cfg.endian (BitVec.ofNat 32 k)) t).2 :=
        step_checkIp (fun hu ha => free_of_available hu hav ha) hr
      obtain ⟨h1, h2⟩ := addressLoop_spec hrest
      exact ⟨hstep.trans h1, h2⟩
    · have hsame : (checkIp cfg env.now (env.arp expired) (ntohl cfg.endian (BitVec.ofNat 32 k)) t).2 = t := by
        have harp : ¬(checkIp cfg env.now (env.arp expired) (ntohl cfg.endian (BitVec.ofNat 32 k)) t).1 = true :=
          fun h => htaken (.inl h)
        unfold checkIp at harp ⊢
        split_ifs at harp ⊢ with hc
        · exact absurd rfl harp
        · rfl
      rw [hsame]
      exact ⟨Step.refl t, fun _ => ⟨hr, hav⟩⟩
    · exact addressLoop_spec hrest

theorem findAddress_spec (expired : Bool) (t : Table n) :
    Step cfg env.now m t (findAddress cfg env expired t).2 ∧ ((findAddress cfg env expired t).1 ≠ 0 →
      inRange cfg (findAddress cfg env expired t).1 = true ∧
        available env.now expired (findAddress cfg env expired t).1 (findAddress cfg env expired t).2 = true) := by
  refine addressLoop_spec fun k hk => ?_
  rw [List.mem_range'_1] at hk
  omega

/-- The server has the right to give address `a` to client `m`. -/
structure Gives (cfg : ServerConfig) (now : Word) (m : List UInt8) (t : Table n) (a : Word) : Prop where
  free : Unique t → Free now m t a
  known : inRange cfg a = true ∨ ∃ j, (t j).yiaddr = a

theorem Gives.before (h : Step cfg now m t t') (ha : a ≠ 0) (hg : Gives cfg now m t' a) : Gives cfg now m t a where
  free hu i hi := by
    by_contra hne
    obtain ⟨hm, hexp⟩ := not_or.mp hne
    have hsame := h.others hu i hm (hi ▸ ha) (Bool.not_eq_true _ ▸ hexp)
    have hfree := hg.free (h.unique hu) i (by rw [hsame, hi])
    rw [hsame] at hfree
    exact hne hfree
  known := by
    rcases hg.known with hr | ⟨j, hj⟩
    · exact .inl hr
    · rw [← hj] at ha ⊢
      exact h.addresses j ha

/-- A client may be given what its own record names. -/
theorem gives_own (hm : (t i).chaddr.mac = m) (ha : (t i).yiaddr ≠ 0) : Gives cfg now m t (t i).yiaddr where
  free hu k hk := by
    rw [hu.slot (hk ▸ ha) hk]
    exact .inl hm
  known := .inr ⟨i, rfl⟩

theorem chooseAddress_spec (cfg : ServerConfig) (env : Env) (r : Request) (t : Table n) :
    Step cfg env.now r.chaddr.mac t (chooseAddress cfg env r t).2.2 ∧ ((chooseAddress cfg env r t).1 ≠ 0 →
      Gives cfg env.now r.chaddr.mac (chooseAddress cfg env r t).2.2 (chooseAddress cfg env r t).1) := by
  have hfound : ∀ {expired : Bool} {a : Word} {t : Table n}, a ≠ 0 →
      inRange cfg a = true ∧ available env.now expired a t = true → Gives cfg env.now r.chaddr.mac t a :=
    fun ha h => ⟨fun hu => free_of_available hu h.2 ha, .inl h.1⟩
  obtain ⟨hstep, hfirst⟩ := @findAddress_spec n cfg env r.chaddr.mac false t
  obtain ⟨hstep', hsecond⟩ := @findAddress_spec n cfg env r.chaddr.mac true (findAddress cfg env false t).2
  unfold chooseAddress
  cases hc : findLeaseByChaddr r.chaddr t with
  | some i => exact ⟨Step.refl t, fun ha => gives_own (mac_of_findLeaseByChaddr hc) ha⟩
  | none =>
    cases r.requested with
    | none =>
      dsimp only
      split_ifs with hzero
      · exact ⟨hstep.trans hstep', fun ha => hfound ha (hsecond ha)⟩
      · exact ⟨hstep, fun ha => hfound ha (hfirst ha)⟩
    | some req =>
      dsimp only
      split_ifs with hreq hzero
      · rw [Bool.and_eq_true] at hreq
        exact ⟨Step.refl t, fun ha => hfound ha hreq⟩
      · exact ⟨hstep.trans hstep', fun ha => hfound ha (hsecond ha)⟩
      · exact ⟨hstep, fun ha => hfound ha (hfirst ha)⟩

/-- What a function of the server does for client `r`: the table, and the address it gives. -/
structure Serves (cfg : ServerConfig) (env : Env) (r : Request) (t : Table n) (out : Option Reply × Table n) : Prop where
  step : Step cfg env.now r.chaddr.mac t out.2
  grant : ∀ c a, out.1.bind Reply.grant = some (c, a) → c = r.chaddr ∧ (a ≠ 0 → Gives cfg env.now r.chaddr.mac t a)

theorem serves_silent (h : Step cfg env.now r.chaddr.mac t t') : Serves cfg env r t (none, t') :=
  ⟨h, fun _ _ h => absurd h (by simp)⟩

theorem serves_nak : Serves cfg env r t (some (.nak r.chaddr), t) :=
  ⟨Step.refl t, fun _ _ h => absurd h (by simp [Reply.grant])⟩

theorem sendOffer_serves (cfg : ServerConfig) (env : Env) (r : Request) (t : Table n) :
    Serves cfg env r t (sendOffer cfg env r t) := by
  obtain ⟨hstep, hgives⟩ := chooseAddress_spec cfg env r t
  unfold sendOffer
  dsimp only
  by_cases hzero : (chooseAddress cfg env r t).1 = 0
  · rw [if_pos hzero]
    exact serves_silent hstep
  rw [if_neg hzero]
  have hadd : Step cfg env.now r.chaddr.mac (chooseAddress cfg env r t).2.2
      (addLease env.now r.chaddr (chooseAddress cfg env r t).1 cfg.offerTime (chooseAddress cfg env r t).2.2).2 :=
    step_addLease (.inr rfl) (fun hu ha => (hgives ha).free hu) fun ha => (hgives ha).known
  generalize hout : addLease env.now r.chaddr (chooseAddress cfg env r t).1 cfg.offerTime
    (chooseAddress cfg env r t).2.2 = out at hadd
  obtain ⟨_ | i, t'⟩ := out
  · exact serves_silent (hstep.trans hadd)
  · refine ⟨hstep.trans hadd, fun c a h => ?_⟩
    obtain ⟨rfl, rfl⟩ := Prod.mk.inj (Option.some.inj h)
    exact ⟨rfl, fun ha => (hgives ha).before hstep ha⟩

theorem sendAck_serves (cfg : ServerConfig) (env : Env) (hm : (t i).chaddr.mac = r.chaddr.mac) :
    Serves cfg env r t (sendAck cfg env r (t i).yiaddr t) := by
  refine ⟨?_, fun c a h => ?_⟩
  · unfold sendAck
    dsimp only
    split_ifs
    · have hown : (t i).yiaddr ≠ 0 → Gives cfg env.now r.chaddr.mac t (t i).yiaddr := gives_own hm
      exact step_addLease (.inr rfl) (fun hu ha => (hown ha).free hu) fun _ => .inr ⟨i, rfl⟩
    · exact Step.refl t
  · obtain ⟨rfl, rfl⟩ := Prod.mk.inj (Option.some.inj h)
    exact ⟨rfl, fun ha => gives_own hm ha⟩

theorem requestKnown_serves (cfg : ServerConfig) (env : Env) (hm : (t i).chaddr.mac = r.chaddr.mac) :
    Serves cfg env r t (requestKnown cfg env r i t) := by
  have hack := sendAck_serves cfg env hm
  unfold requestKnown
  cases r.serverId <;> cases r.requested <;> dsimp only
  · split_ifs
    · exact hack
    · exact serves_nak
  · split_ifs
    · exact hack
    · exact serves_nak
  · exact serves_silent (Step.refl t)
  · split_ifs
    · exact hack
    · exact serves_silent (Step.refl t)

theorem requestUnknown_serves (cfg : ServerConfig) (env : Env) (r : Request) (t : Table n) :
    Serves cfg env r t (requestUnknown env r t) := by
  unfold requestUnknown
  cases r.serverId with
  | some _ => exact serves_silent (Step.refl t)
  | none =>
    cases r.requested with
    | none =>
      dsimp only
      split_ifs
      · exact serves_nak
      · exact serves_silent (Step.refl t)
    | some req =>
      dsimp only
      cases findLeaseByYiaddr req t with
      | none => exact serves_nak
      | some j =>
        dsimp only
        split_ifs with hexp
        · exact serves_silent (step_update (.inr hexp) rfl (.inr rfl))
        · exact serves_nak

/-- A host name written to a record. -/
theorem step_hostname (name : List UInt8) (i : Fin n) (h : Step cfg now m t t')
    (hi : (t i).chaddr.mac = m ∨ leaseExpired now (t i) = true) :
    Step cfg now m t (Function.update t' i { t' i with hostname := name }) where
  unique hu := by
    have hu' := h.unique hu
    refine unique_update hu' (fun k hk hne heq => hk (hu'.slot ?_ heq)) fun k hk hne heq => hk (hu'.client ?_ heq)
    · rwa [heq]
    · rwa [heq]
  others hu k hm ha he := by
    have hki : k ≠ i := by
      rintro rfl
      exact hi.elim hm fun h => Bool.false_ne_true (he ▸ h)
    rw [Function.update_of_ne hki]
    exact h.others hu k hm ha he
  addresses k hk := by
    have hsame : (Function.update t' i { t' i with hostname := name } k).yiaddr = (t' k).yiaddr := by
      rcases eq_or_ne k i with rfl | hki
      · rw [Function.update_self]
      · rw [Function.update_of_ne hki]
    rw [hsame] at hk ⊢
    exact h.addresses k hk

theorem handle_serves (cfg : ServerConfig) (env : Env) (r : Request) (t : Table n) :
    Serves cfg env r t (handle cfg env r t) := by
  unfold handle
  split
  · exact serves_silent (Step.refl t)
  · exact sendOffer_serves cfg env r t
  · next i _ hc =>
    have hm := mac_of_findLeaseByChaddr hc
    obtain ⟨hstep, hgrant⟩ := requestKnown_serves cfg env hm
    exact ⟨step_hostname _ i hstep (.inl hm), hgrant⟩
  · exact requestUnknown_serves cfg env r t
  · next i _ hc => exact serves_silent (step_update (.inl (mac_of_findLeaseByChaddr hc)) rfl (.inr rfl))
  · next i _ hc => exact serves_silent (step_update (.inl (mac_of_findLeaseByChaddr hc)) rfl (.inl rfl))
  · exact ⟨Step.refl t, fun _ _ h => absurd h (by simp [Reply.grant])⟩
  · exact serves_silent (Step.refl t)

/-! ### Runs -/

variable {statics : List (Chaddr × Word)} {file : List DhcpOfferedAddr} {es later : List Label} {l : Label} {time : Word}

/-- An address that the server may give at all. -/
def Known (cfg : ServerConfig) (statics : List (Chaddr × Word)) (file : List DhcpOfferedAddr) (a : Word) : Prop :=
  inRange cfg a = true ∨ a ∈ statics.map Prod.snd ∨ a ∈ file.map DhcpOfferedAddr.yiaddr

theorem addAll_spec (P : Word → Prop) : ∀ {k : ℕ} {entries : List (Chaddr × Word × Word)} {t : Table n},
    (∀ x ∈ entries, P x.2.1) → Unique t → (∀ i, (t i).yiaddr ≠ 0 → P (t i).yiaddr) →
      Unique (addAll now k entries t) ∧ ∀ i, (addAll now k entries t i).yiaddr ≠ 0 → P (addAll now k entries t i).yiaddr
  | 0, _, _, _, hu, hP => ⟨hu, hP⟩
  | _ + 1, [], _, _, hu, hP => ⟨hu, hP⟩
  | k + 1, x :: entries, t, hx, hu, hP => by
    obtain ⟨c, a, e⟩ := x
    have hu' : Unique (addLease now c a e t).2 := unique_addLease hu
    have hP' : ∀ i, ((addLease now c a e t).2 i).yiaddr ≠ 0 → P ((addLease now c a e t).2 i).yiaddr := by
      intro i hi
      rcases yiaddr_addLease hi with heq | ⟨j, hj⟩
      · rw [heq]
        exact hx _ List.mem_cons_self
      · rw [← hj] at hi ⊢
        exact hP j hi
    unfold addAll
    generalize addLease now c a e t = out at hu' hP'
    obtain ⟨_ | i, t'⟩ := out
    · exact ⟨hu', hP'⟩
    · exact addAll_spec P (fun x hx' => hx x (List.mem_cons_of_mem _ hx')) hu' hP'

theorem unique_zeroed : Unique fun _ : Fin n => zeroed := ⟨Keyed.const 0, Keyed.const blankChaddr⟩

theorem start_spec (cfg : ServerConfig) (now : Word) (statics : List (Chaddr × Word)) (file : List DhcpOfferedAddr) :
    Unique (start cfg now statics file : Table n) ∧ ∀ i, ((start cfg now statics file : Table n) i).yiaddr ≠ 0 →
      Known cfg statics file ((start cfg now statics file : Table n) i).yiaddr := by
  have hload : Unique (loadLeases now statics fun _ : Fin n => zeroed) ∧ _ :=
    addAll_spec (Known cfg statics file) (fun x hx => by
      obtain ⟨y, hy, rfl⟩ := List.mem_map.mp hx
      exact .inr (.inl (List.mem_map_of_mem hy))) unique_zeroed fun i hi => absurd rfl hi
  refine addAll_spec (Known cfg statics file) (fun x hx => ?_) hload.1 hload.2
  obtain ⟨y, hy, rfl⟩ := List.mem_map.mp hx
  exact .inr (.inr (List.mem_map_of_mem (List.mem_of_mem_filter hy)))

theorem unique_of_run (h : Runs cfg now statics file es t) : Unique t := by
  refine h.inv (I := fun _ t => Unique t) (start_spec cfg now statics file).1 fun es t l t' hu hl => ?_
  have hserves := handle_serves cfg l.env (l.request cfg) t
  rw [hl] at hserves
  exact hserves.step.unique hu

theorem known_of_run (h : Runs cfg now statics file es t) : ∀ i, (t i).yiaddr ≠ 0 → Known cfg statics file (t i).yiaddr := by
  refine h.inv (I := fun _ t => ∀ i, (t i).yiaddr ≠ 0 → Known cfg statics file (t i).yiaddr)
    (start_spec cfg now statics file).2 fun es t l t' hk hl i hi => ?_
  have hserves := handle_serves cfg l.env (l.request cfg) t
  rw [hl] at hserves
  rcases hserves.step.addresses i hi with hr | ⟨j, hj⟩
  · exact .inl hr
  · rw [← hj] at hi ⊢
    exact hk j hi

/-- A server for 192.168.1.2 to 192.168.1.254, with leases of a day. -/
def lanConfig : ServerConfig where
  endian := .big
  server := 0xc0a80101
  start := 0xc0a80102
  last := 0xc0a801fe
  lease := 86400
  remaining := true
  declineTime := 3600
  conflictTime := 3600
  offerTime := 60
  minLease := 60
  last_lt := by decide

/-- A client's hardware address. -/
def laptop : Chaddr := Vector.ofFn fun i => if i < 6 then UInt8.ofNat (i + 1) else 0

/-- The client has a lease of an hour for 192.168.1.2. -/
def laptopLease : DhcpOfferedAddr := ⟨laptop, 0xc0a80102, 3600, List.replicate 64 0⟩

/-- The client asks for its lease again. -/
def renewal : Mem :=
  write (write (write (fun _ => 0) 12 [192, 168, 1, 2]) 28 laptop.toList) 240 [0x35, 1, 3, 0xff]

theorem getOption_renewal {code : UInt8} (hcode : code ≠ dhcpEnd) :
    getOption renewal code = if 0x35 = code then some 242 else none := by
  have hkind : renewal (Field.options.offset + 0) = 0x35 := by decide
  have hlen : renewal (Field.options.offset + 0 + 1) = 1 := by decide
  have hstop : renewal (Field.options.offset + (0 + ((1 : UInt8).toNat + 2))) = dhcpEnd := by decide
  unfold getOption
  rw [getLoop, if_neg (by decide)]
  dsimp only
  rw [hkind, hlen]
  by_cases hkey : 0x35 = code
  · rw [if_pos hkey, if_pos hkey, if_neg (by decide)]
    rfl
  · rw [if_neg hkey, if_neg hkey, if_neg (by decide), if_neg (by decide), if_neg (by decide), getLoop, if_neg (by decide)]
    dsimp only
    rw [hstop, if_neg hcode.symm, if_neg (by decide), if_neg (by decide), if_pos rfl]
    rfl

theorem request_renewal : Request.ofPacket .big renewal = ⟨some 3, laptop, 0xc0a80102, none, none, none, none⟩ := by
  unfold Request.ofPacket
  rw [getOption_renewal (by decide), getOption_renewal (by decide), getOption_renewal (by decide),
    getOption_renewal (by decide), getOption_renewal (by decide)]
  have hchaddr : (Vector.ofFn fun i : Fin 16 => renewal (28 + i)) = laptop := by decide +kernel
  rw [hchaddr]
  rfl

/-- Nobody else answers, and the answer is sent. -/
def quiet (now : Word) : Env := ⟨now, fun _ _ => false, fun _ => false, true⟩

/-- The server with the lease in its file answers the request. -/
theorem handles_renewal : ∃ t' : Table 2, Handles lanConfig (start lanConfig 1 [] [laptopLease])
    ⟨quiet 100, renewal, some (.ack laptop 0xc0a80102 86400)⟩ t' := by
  refine ⟨_, Prod.ext ?_ rfl⟩
  show (handle lanConfig (quiet 100) (Request.ofPacket .big renewal) _).1 = _
  rw [request_renewal]
  decide +kernel

/-- **No two records ever name the same address or the same client**, whatever files the server starts from and
whatever it is sent, and no record an address that is not the server's to give. -/
theorem table_of_run (h : Runs cfg now statics file es t) :
    Unique t ∧ ∀ i, (t i).yiaddr ≠ 0 → Known cfg statics file (t i).yiaddr := ⟨unique_of_run h, known_of_run h⟩

theorem table_of_run_renewal : ∃ t : Table 2,
    Runs lanConfig 1 [] [laptopLease] [⟨quiet 100, renewal, some (.ack laptop 0xc0a80102 86400)⟩] t ∧
      Unique t ∧ ∀ i, (t i).yiaddr ≠ 0 → Known lanConfig [] [laptopLease] (t i).yiaddr := by
  obtain ⟨t, ht⟩ := handles_renewal
  have hrun : Runs lanConfig 1 [] [laptopLease] _ t := Run.Trace.nil.snoc ht
  exact ⟨t, hrun, table_of_run hrun⟩

/-- **The server gives no address that is not its own to give**: every address it offers or acknowledges is in its
range or stood in one of its files, and it answers the client that asked. -/
theorem addresses_of_run (h : Runs cfg now statics file es t) (hl : l ∈ es) (hg : l.reply.bind Reply.grant = some (c, a))
    (ha : a ≠ 0) : c = (l.request cfg).chaddr ∧ Known cfg statics file a := by
  obtain ⟨pre, post, rfl⟩ := List.append_of_mem hl
  obtain ⟨t₁, t₂, hpre, hstep, -⟩ := h.split rfl
  have hserves := handle_serves cfg l.env (l.request cfg) t₁
  rw [hstep] at hserves
  obtain ⟨hc, hgives⟩ := hserves.grant c a hg
  refine ⟨hc, ?_⟩
  rcases (hgives ha).known with hr | ⟨j, rfl⟩
  · exact .inl hr
  · exact known_of_run hpre _ ha

theorem addresses_of_run_renewal : Known lanConfig [] [laptopLease] 0xc0a80102 := by
  obtain ⟨t, ht⟩ := handles_renewal
  have hrun : Runs lanConfig 1 [] [laptopLease] _ t := Run.Trace.nil.snoc ht
  exact (addresses_of_run hrun (List.mem_append_right _ List.mem_cons_self) (c := laptop) rfl (by decide)).2

/-- A lease that has not run out, while other clients are served. -/
theorem kept_of_others (hu : Unique t) (hi : (t i).yiaddr ≠ 0) (h : Run.Trace (Handles cfg) t later t')
    (hothers : ∀ l ∈ later, (l.request cfg).chaddr.mac ≠ (t i).chaddr.mac ∧ leaseExpired l.env.now (t i) = false) :
    Unique t' ∧ t' i = t i ∧ ∀ l ∈ later, ∀ c, l.reply.bind Reply.grant ≠ some (c, (t i).yiaddr) := by
  induction h with
  | nil => exact ⟨hu, rfl, by simp⟩
  | @snoc es t' t'' l _ hl ih =>
    obtain ⟨hu', hsame, hgrants⟩ := ih fun l hl => hothers l (List.mem_append_left _ hl)
    obtain ⟨hmac, hexp⟩ := hothers l (List.mem_append_right _ List.mem_cons_self)
    have hserves := handle_serves cfg l.env (l.request cfg) t'
    rw [hl] at hserves
    refine ⟨hserves.step.unique hu', ?_, fun l' hl' c hg => ?_⟩
    · exact (hserves.step.others hu' i (by rw [hsame]; exact hmac.symm) (by rwa [hsame]) (by rwa [hsame])).trans hsame
    · rcases List.mem_append.mp hl' with hl' | hl'
      · exact hgrants l' hl' c hg
      · cases List.mem_singleton.mp hl'
        have hfree := ((hserves.grant c _ hg).2 hi).free hu' i (by rw [hsame])
        rw [hsame] at hfree
        exact hfree.elim (fun hm => hmac hm.symm) fun h => Bool.false_ne_true (hexp ▸ h)

/-- A lease that is added for the client of its address, unless a static record of the client names another one. -/
theorem leased_of_addLease (hu : Unique t) (ha : (t i).yiaddr ≠ 0) (hm : (t i).chaddr.mac = c.mac) (hnow : now ≠ 0)
    (hstatic : ∀ k, (t k).chaddr = c → (t k).expires = forever → (t k).yiaddr = (t i).yiaddr) :
    ∃ j, ((addLease now c (t i).yiaddr e t).2 j).yiaddr = (t i).yiaddr ∧
      ((addLease now c (t i).yiaddr e t).2 j).chaddr.mac = c.mac ∧
      (((addLease now c (t i).yiaddr e t).2 j).expires = now + e ∨
        ((addLease now c (t i).yiaddr e t).2 j).expires = forever) := by
  have hclears : clears c (t i).yiaddr (t i) = true := by
    unfold clears
    rw [decide_eq_true ha, decide_eq_true rfl]
    exact Bool.or_true _
  rcases addLease_cases now c (t i).yiaddr e t with ⟨k, hk, hf, heq⟩ | ⟨hnone, ⟨hold, -⟩ | ⟨j, -, heq⟩⟩
  · have hka : (t k).yiaddr = (t i).yiaddr := by
      rcases Bool.or_eq_true_iff.mp hk with h | h
      · exact hstatic k (of_decide_eq_true (Bool.and_eq_true_iff.mp h).2) hf
      · exact of_decide_eq_true (Bool.and_eq_true_iff.mp h).2
    have hki : k = i := hu.slot (hka ▸ ha) hka
    rw [hki] at hf
    have hsame : cleared c (t i).yiaddr (t i) = t i := if_neg fun h => h.2 hf
    refine ⟨i, ?_⟩
    rw [heq]
    dsimp only
    rw [hsame]
    exact ⟨rfl, hm, .inr hf⟩
  · have hz : cleared c (t i).yiaddr (t i) = zeroed := if_pos ⟨hclears, hnone i hclears⟩
    refine absurd ?_ (hold i)
    rw [hz]
    exact (BitVec.pos_iff_ne_zero now).mpr hnow
  · refine ⟨j, ?_⟩
    rw [heq]
    dsimp only
    rw [Function.update_self]
    refine ⟨rfl, rfl, ?_⟩
    dsimp only
    split_ifs
    · exact .inr rfl
    · exact .inl rfl

theorem sendOffer_reply (cfg : ServerConfig) (env : Env) (r : Request) (t : Table n) :
    (sendOffer cfg env r t).1 ≠ some (.ack c a time) := by
  unfold sendOffer
  dsimp only
  by_cases hzero : (chooseAddress cfg env r t).1 = 0
  · rw [if_pos hzero]
    exact (Option.some_ne_none _).symm
  · rw [if_neg hzero]
    generalize addLease env.now r.chaddr (chooseAddress cfg env r t).1 cfg.offerTime (chooseAddress cfg env r t).2.2 = out
    obtain ⟨_ | i, t'⟩ := out <;> simp

theorem requestUnknown_reply (env : Env) (r : Request) (t : Table n) : (requestUnknown env r t).1 ≠ some (.ack c a time) := by
  unfold requestUnknown
  cases r.serverId with
  | some _ => exact (Option.some_ne_none _).symm
  | none =>
    cases r.requested with
    | none =>
      dsimp only
      split_ifs <;> simp
    | some req =>
      dsimp only
      cases findLeaseByYiaddr req t with
      | none => simp
      | some j =>
        dsimp only
        split_ifs <;> simp

theorem requestKnown_reply (cfg : ServerConfig) (env : Env) (r : Request) (i : Fin n) (t : Table n) :
    requestKnown cfg env r i t = sendAck cfg env r (t i).yiaddr t ∨ (requestKnown cfg env r i t).1 ≠ some (.ack c a time) := by
  unfold requestKnown
  cases r.serverId <;> cases r.requested <;> dsimp only
  · split_ifs
    · exact .inl rfl
    · exact .inr (by simp)
  · split_ifs
    · exact .inl rfl
    · exact .inr (by simp)
  · exact .inr (by simp)
  · split_ifs
    · exact .inl rfl
    · exact .inr (by simp)

/-- An acknowledgement answers a request of a client with a lease. -/
theorem ack_cases {env : Env} {r : Request} (h : handle cfg env r t = (some (.ack c a time), t')) :
    ∃ i name, (t i).chaddr.mac = c.mac ∧ (t i).yiaddr = a ∧ t' =
      Function.update (sendAck cfg env r a t).2 i { (sendAck cfg env r a t).2 i with hostname := name } ∧
      c = r.chaddr ∧ time = ackTime cfg r := by
  unfold handle at h
  split at h
  · simp at h
  · exact absurd (congrArg Prod.fst h) (sendOffer_reply cfg env r t)
  · next i _ hc =>
    rcases @requestKnown_reply n a c time cfg env r i t with hack | hack
    · dsimp only at h
      rw [hack] at h
      obtain ⟨hreply, rfl⟩ := Prod.mk.inj h
      obtain ⟨rfl, rfl, rfl⟩ := Reply.ack.inj (Option.some.inj hreply)
      exact ⟨i, _, mac_of_findLeaseByChaddr hc, rfl, rfl, rfl, rfl⟩
    · exact absurd (congrArg Prod.fst h) hack
  · exact absurd (congrArg Prod.fst h) (requestUnknown_reply env r t)
  all_goals simp at h

/-- **An acknowledged address is the client's alone.** Once the server has acknowledged an address, a record holds it
for the client, to the end of the lease; until that has run out, and as long as the client itself sends nothing, no
packets of other clients change the record, and the address is neither offered nor acknowledged to any of them. (A
client that a static record ties to another address is the exception.) -/
theorem ack_exclusive_of_run (h : Runs cfg now statics file es t) (hl : Handles cfg t l t')
    (hack : l.reply = some (.ack c a time)) (ha : a ≠ 0) (hsent : l.env.sent = true) (hnow : l.env.now ≠ 0)
    (hstatic : ∀ k, (t k).chaddr = c → (t k).expires = forever → (t k).yiaddr = a) :
    ∃ i, (t' i).yiaddr = a ∧ (t' i).chaddr.mac = c.mac ∧
      ((t' i).expires = l.env.now + time ∨ (t' i).expires = forever) ∧
      ∀ later t'', Run.Trace (Handles cfg) t' later t'' →
        (∀ l' ∈ later, (l'.request cfg).chaddr.mac ≠ c.mac ∧ ¬(t' i).expires < l'.env.now) →
          t'' i = t' i ∧ ∀ l' ∈ later, ∀ c', l'.reply.bind Reply.grant ≠ some (c', a) := by
  have hu := unique_of_run h
  have hu' : Unique t' := by
    have hserves := handle_serves cfg l.env (l.request cfg) t
    rw [hl] at hserves
    exact hserves.step.unique hu
  rw [Handles, hack] at hl
  obtain ⟨i, name, hm, rfl, rfl, rfl, rfl⟩ := ack_cases hl
  obtain ⟨j, hja, hjm, hje⟩ := leased_of_addLease (e := ackTime cfg (l.request cfg)) hu ha hm hnow hstatic
  have htable : (sendAck cfg l.env (l.request cfg) (t i).yiaddr t).2 =
      (addLease l.env.now (l.request cfg).chaddr (t i).yiaddr (ackTime cfg (l.request cfg)) t).2 := if_pos hsent
  rw [htable] at hu' ⊢
  generalize (addLease l.env.now (l.request cfg).chaddr (t i).yiaddr (ackTime cfg (l.request cfg)) t).2 = s at hja hjm hje hu'
  -- the host name changes none of this
  have hrec : ∀ k, ∃ name', (Function.update s i { s i with hostname := name } k) = { s k with hostname := name' } := by
    intro k
    rcases eq_or_ne k i with rfl | hk
    · exact ⟨name, Function.update_self ..⟩
    · exact ⟨(s k).hostname, Function.update_of_ne hk ..⟩
  obtain ⟨name', hrec⟩ := hrec j
  rw [← hja] at ha
  refine ⟨j, by rw [hrec, ← hja], by rw [hrec, ← hjm], by rwa [hrec], fun later t'' hrun hothers => ?_⟩
  have hja' : (Function.update s i { s i with hostname := name } j).yiaddr = (t i).yiaddr := by rw [hrec, ← hja]
  obtain ⟨-, hsame, hgrants⟩ := kept_of_others hu' (by rw [hrec]; exact ha) hrun fun l' hl' =>
    ⟨by rw [hrec]; exact fun hm => (hothers l' hl').1 (hm.trans hjm), decide_eq_false (hothers l' hl').2⟩
  rw [hja'] at hgrants
  exact ⟨hsame, hgrants⟩

theorem ack_exclusive_renewal : ∃ t : Table 2, ∃ i, (t i).yiaddr = 0xc0a80102 ∧
    ∀ later t'', Run.Trace (Handles lanConfig) t later t'' →
      (∀ l' ∈ later, (l'.request lanConfig).chaddr.mac ≠ laptop.mac ∧ ¬(t i).expires < l'.env.now) →
        t'' i = t i ∧ ∀ l' ∈ later, ∀ c', l'.reply.bind Reply.grant ≠ some (c', 0xc0a80102) := by
  obtain ⟨t, ht⟩ := handles_renewal
  have hrun : Runs lanConfig 1 [] [laptopLease] [] (start lanConfig 1 [] [laptopLease] : Table 2) := .nil
  obtain ⟨i, hi, -, -, hkept⟩ := ack_exclusive_of_run hrun ht rfl (by decide) rfl (by decide) (by decide +kernel)
  exact ⟨t, i, hi, hkept⟩

end Udhcpd
end Router
