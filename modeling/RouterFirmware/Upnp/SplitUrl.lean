/-
# Callback URLs

`upnp/upnp/gena.c`: `split_url` takes the host, the port and the path out of the URL that a subscriber is to be
notified at. The search for '/' begins where the one for ':' ended, which is nowhere if there is no ':', and may have
passed over the '/'.

`callback_iff` says which URLs it reads as they are meant: those with a ':' in front of any '/'.

`*port` is not set by `gena_new_subscription`.
-/
import RouterFirmware.Lib.InPlace

namespace Router
namespace Upnp
namespace SplitUrl

open CMem CText

/-! ### The code -/

/-- What must not happen: `*port` is read and has not been set, or what is searched is NULL. -/
inductive Fault where
  | unsetPort
  | nullSearch
deriving DecidableEq

/-- Where `*path` points to: a position of the URL, or `""`. -/
inductive PathPtr where
  | url (p : ℕ)
  | literal

/-- `*host`, `*port` and `*path`, as far as they are set. -/
structure Vars where
  host : Option ℕ
  port : Option ℤ
  path : Option PathPtr

/-- `split_url(url, host, port, path)`. -/
def splitUrl (size : ℕ) (m : Mem) (url : ℕ) (v : Vars) : Except Fault (Bool × Mem × Vars) :=
  if ¬bytes "http://" <+: scan m url (size - url) then .ok (false, m, v)
  else
    let host := url + 7
    let (p, m, port) := match strpbrkAt size [58] m host with
      | some p => (some (p + 1), write m p [0], some (atoi (scan m (p + 1) (size - (p + 1)))))
      | none => (none, m, v.port)
    match port, p with
    | none, _ => .error .unsetPort
    | some _, none => .error .nullSearch
    | some port, some p =>
      let port := if port = 0 then 80 else port
      let path := match strpbrkAt size [47] m p with
        | some p => .url (p + 1)
        | none => .literal
      .ok (strlen size m host ≠ 0, m, ⟨some host, some port, some path⟩)

/-- The part of a subscription that is taken from the URL. -/
structure Callback where
  cbHost : Bytes
  cbPort : ℤ
  cbPath : Bytes
deriving DecidableEq

/-- What `gena_new_subscription` makes of the URL, if it does not refuse it. -/
def callback (cb : CStr) : Except Fault (Option Callback) :=
  let size := cb.length + 1
  (splitUrl size (write (fun _ => 0) 0 cb.withNul) 0 ⟨none, none, none⟩).map fun r =>
    match r with
    | (true, m, ⟨some host, some port, some path⟩) =>
      some {
        cbHost := scan m host (size - host)
        cbPort := port
        cbPath := match path with
          | .url p => scan m p (size - p)
          | .literal => [] }
    | _ => none

/-! ### What it is for -/

/-- `http://host[:port][/path]`. -/
structure Url where
  host : Bytes
  port : Option Bytes
  path : Option Bytes
  host_ne : host ≠ []
  colon_notMem : 58 ∉ host
  slash_notMem : 47 ∉ host
  digits : ∀ p ∈ port, ∀ c ∈ p, isDigit c = true

def Url.text (u : Url) : Bytes :=
  bytes "http://" ++ (u.host ++ ((u.port.elim [] (58 :: ·)) ++ (u.path.elim [] (47 :: ·))))

/-- The port to use. -/
def Url.portNumber (u : Url) : ℕ := if digitsVal (u.port.getD []) = 0 then 80 else digitsVal (u.port.getD [])

/-- No URL at all, or one without a host. -/
def Hostless (text : Bytes) : Prop :=
  ∀ rest, text = bytes "http://" ++ rest → ∀ c ∈ rest.head?, c = 58 ∨ c = 47

/-- A URL is read as it is meant, one without a host is refused, and nothing goes wrong. -/
structure ReadsRight (cb : CStr) : Prop where
  url : ∀ u : Url, cb.bytes = u.text → callback cb = .ok (some ⟨u.host, u.portNumber, u.path.getD []⟩)
  refused : Hostless cb.bytes → callback cb = .ok none
  safe : ∃ r, callback cb = .ok r

/-- A ':' stands in front of any '/', and a number behind it is an `int`. -/
def Coloned (rest : Bytes) : Prop :=
  ∃ host behind, rest = host ++ 58 :: behind ∧ 58 ∉ host ∧ 47 ∉ host ∧
    (host ≠ [] → (∀ c ∈ behind.takeWhile (· ≠ 47), isDigit c = true) → digitsVal (behind.takeWhile (· ≠ 47)) < 2 ^ 31)

/-! ### What the code does -/

section Code

variable {size url : ℕ} {m : Mem} {v : Vars} {text rest host behind : Bytes}

theorem splitUrl_other (h : Stands m url text) (hsize : url + text.length < size) (hhttp : ¬bytes "http://" <+: text) :
    splitUrl size m url v = .ok (false, m, v) := by
  rw [splitUrl, h.scan (by omega), if_pos hhttp]

/-- Without a ':', NULL is searched for '/', after `*port` has been read as it is. -/
theorem splitUrl_noColon (h : Stands m url (bytes "http://" ++ rest)) (hsize : url + 7 + rest.length < size)
    (hcolon : 58 ∉ rest) :
    splitUrl size m url v = .error (match v.port with | none => .unsetPort | some _ => .nullSearch) := by
  have hlen : (bytes "http://" ++ rest).length = 7 + rest.length := List.length_append
  have hhost : Stands m (url + 7) rest := h.drop
  have hnone : strpbrkAt size [58] m (url + 7) = none := by
    rw [hhost.strpbrkAt hsize, strpbrk_singleton_none hcolon, Option.map_none]
  rw [splitUrl, h.scan (by omega), if_neg (not_not.mpr (List.prefix_append _ rest))]
  simp only [hnone]
  cases v.port <;> rfl

/-- Where the path is, behind a ':' at `p`. -/
def pathPtr (p : ℕ) (behind : Bytes) : PathPtr :=
  if 47 ∈ behind then .url (p + 1 + (behind.takeWhile (· ≠ 47)).length + 1) else .literal

theorem pathPtr_append {p : ℕ} {front path : Bytes} (h : 47 ∉ front) :
    pathPtr p (front ++ 47 :: path) = .url (p + 1 + front.length + 1) := by
  rw [pathPtr, if_pos (List.mem_append_right _ List.mem_cons_self), takeWhile_ne_append h]

theorem splitUrl_colon (h : Stands m url (bytes "http://" ++ (host ++ 58 :: behind)))
    (hsize : url + 7 + (host ++ 58 :: behind).length < size) (hcolon : 58 ∉ host) :
    splitUrl size m url v = .ok (host ≠ [], write m (url + 7 + host.length) [0],
      ⟨some (url + 7), some (if atoi behind = 0 then 80 else atoi behind),
        some (pathPtr (url + 7 + host.length) behind)⟩) := by
  have hlen : (bytes "http://" ++ (host ++ 58 :: behind)).length = 7 + (host ++ 58 :: behind).length :=
    List.length_append
  have hall : Stands m (url + 7) (host ++ 58 :: behind) := h.drop
  obtain ⟨hhost, hbehind⟩ := hall.cut
  have hbehindLen : url + 7 + host.length + 1 + behind.length < size := by
    rw [List.length_append, List.length_cons] at hsize
    omega
  have hfind : strpbrkAt size [58] m (url + 7) = some (url + 7 + host.length) := by
    rw [hall.strpbrkAt hsize, strpbrk_singleton hcolon, Option.map_some]
  have hport : scan m (url + 7 + host.length + 1) (size - (url + 7 + host.length + 1)) = behind :=
    hall.drop.tail.scan (by omega)
  have hpath : (match strpbrkAt size [47] (write m (url + 7 + host.length) [0]) (url + 7 + host.length + 1) with
      | some p => PathPtr.url (p + 1)
      | none => .literal) = pathPtr (url + 7 + host.length) behind := by
    rw [hbehind.strpbrkAt hbehindLen]
    by_cases hslash : 47 ∈ behind
    · obtain ⟨front, path, rfl, hfront⟩ := List.eq_append_cons_of_mem hslash
      rw [strpbrk_singleton hfront, pathPtr_append hfront]
      rfl
    · rw [strpbrk_singleton_none hslash, pathPtr, if_neg hslash]
      rfl
  have hempty : strlen size (write m (url + 7 + host.length) [0]) (url + 7) ≠ 0 ↔ host ≠ [] := by
    rw [strlen, hhost.scan (by omega), ne_eq, List.length_eq_zero_iff]
  rw [splitUrl, h.scan (by omega), if_neg (not_not.mpr (List.prefix_append _ _))]
  simp only [hfind, hport, hpath, hempty]

end Code

/-! ### What is kept of a URL -/

section Callback

variable {cb : CStr} {rest host behind : Bytes}

/-- The URL stands in a buffer of its own. -/
theorem stands_url (cb : CStr) : Stands (write (fun _ => 0) 0 cb.withNul) 0 cb.bytes :=
  ⟨holds_write_same _ _ _, cb.nul_notMem⟩

theorem callback_other (h : ¬bytes "http://" <+: cb.bytes) : callback cb = .ok none := by
  rw [callback, splitUrl_other (stands_url cb) (by rw [CStr.length]; omega) h]
  rfl

theorem callback_noColon (h : cb.bytes = bytes "http://" ++ rest) (hcolon : 58 ∉ rest) :
    callback cb = .error .unsetPort := by
  have hstands := stands_url cb
  have hlen : cb.length = 7 + rest.length := by
    rw [CStr.length, h]
    exact List.length_append
  rw [h] at hstands
  rw [callback, splitUrl_noColon hstands (by omega) hcolon]
  rfl

/-- The host is what stands in front of the first ':', the port is read behind it, and the path is what stands behind
the first '/' there. -/
theorem callback_colon (h : cb.bytes = bytes "http://" ++ (host ++ 58 :: behind)) (hcolon : 58 ∉ host) :
    callback cb = .ok (if host = [] then none else
      some ⟨host, if atoi behind = 0 then 80 else atoi behind, (behind.dropWhile (· ≠ 47)).tail⟩) := by
  have hstands := stands_url cb
  have hlen : cb.length = 7 + (host.length + (behind.length + 1)) := by
    rw [CStr.length, h, List.length_append, List.length_append, List.length_cons]
    rfl
  rw [h] at hstands
  have hall : Stands _ (0 + 7) (host ++ 58 :: behind) := hstands.drop
  obtain ⟨hhost, hbehind⟩ := hall.cut
  rw [callback, splitUrl_colon hstands (by rw [List.length_append, List.length_cons]; omega) hcolon]
  by_cases hempty : host = []
  · rw [if_pos hempty]
    simp [Except.map, hempty]
  · rw [if_neg hempty]
    have hpath : (match pathPtr (0 + 7 + host.length) behind with
        | .url p => scan (write (write (fun _ => 0) 0 cb.withNul) (0 + 7 + host.length) [0]) p (cb.length + 1 - p)
        | .literal => []) = (behind.dropWhile (· ≠ 47)).tail := by
      by_cases hslash : 47 ∈ behind
      · obtain ⟨front, path, rfl, hfront⟩ := List.eq_append_cons_of_mem hslash
        rw [pathPtr_append hfront, dropWhile_ne_append hfront]
        rw [List.length_append, List.length_cons] at hlen
        exact hbehind.drop.tail.scan (by omega)
      · rw [pathPtr, if_neg hslash, List.dropWhile_eq_nil_iff.mpr (forall_ne_of_notMem hslash)]
        rfl
    simp only [Except.map, ne_eq, hempty, not_false_eq_true, decide_true, hpath]
    rw [hhost.scan (by omega)]

end Callback

/-! ### When it is read right -/

section Reading

variable {cb : CStr} {u : Url} {rest host behind port : Bytes} {path : Option Bytes}

theorem Url.http_text (u : Url) : bytes "http://" <+: u.text := List.prefix_append _ _

/-- The parts of a URL that has a ':' in front of any '/'. -/
theorem Url.parts (hcolon : 58 ∉ host) (hslash : 47 ∉ host)
    (h : bytes "http://" ++ (host ++ 58 :: behind) = u.text) :
    u.host = host ∧ ∃ port, u.port = some port ∧ behind = port ++ u.path.elim [] (47 :: ·) := by
  have htail := List.append_cancel_left h
  cases hport : u.port with
  | some port =>
    rw [hport] at htail
    obtain ⟨rfl, rfl⟩ := append_cons_inj hcolon u.colon_notMem htail
    exact ⟨rfl, port, rfl, rfl⟩
  | none =>
    rw [hport] at htail
    cases hpath : u.path with
    | none =>
      rw [hpath] at htail
      have hmem : 58 ∈ host ++ 58 :: behind := List.mem_append_right _ List.mem_cons_self
      rw [htail] at hmem
      exact absurd (by simpa using hmem) u.colon_notMem
    | some path =>
      rw [hpath] at htail
      obtain ⟨-, hne, -⟩ := append_cons_inj₂ hslash u.colon_notMem htail
      exact absurd hne (by decide)

theorem slash_notMem_digits (h : ∀ c ∈ port, isDigit c = true) : 47 ∉ port := fun hmem => absurd (h 47 hmem) (by decide)

/-- The port that is read. -/
theorem atoi_port (h : ∀ c ∈ port, isDigit c = true) :
    atoi (port ++ path.elim [] (47 :: ·)) = min (digitsVal port : ℤ) (2 ^ 31 - 1) := by
  have hhead : ∀ c ∈ (path.elim [] (47 :: ·)).head?, isDigit c = false := by
    cases path with
    | none => exact nofun
    | some path =>
      intro c hc
      rw [← Option.some.inj hc]
      decide
  by_cases hne : port = []
  · subst hne
    cases path <;> rfl
  · exact atoi_digits_min hne h hhead

/-- What is in front of the first '/', and what is behind it. -/
theorem takeWhile_port (hslash : 47 ∉ port) :
    (port ++ path.elim [] (47 :: ·)).takeWhile (· ≠ 47) = port ∧
      ((port ++ path.elim [] (47 :: ·)).dropWhile (· ≠ 47)).tail = path.getD [] := by
  cases path with
  | none =>
    rw [Option.elim_none, List.append_nil, takeWhile_ne_self hslash,
      List.dropWhile_eq_nil_iff.mpr (forall_ne_of_notMem hslash)]
    exact ⟨rfl, rfl⟩
  | some path =>
    rw [Option.elim_some, takeWhile_ne_append hslash, dropWhile_ne_append hslash]
    exact ⟨rfl, rfl⟩

theorem exists_parts (behind : Bytes) :
    ∃ (port : Bytes) (path : Option Bytes), behind = port ++ path.elim [] (47 :: ·) ∧ 47 ∉ port := by
  by_cases hslash : 47 ∈ behind
  · obtain ⟨port, path, rfl, hport⟩ := List.eq_append_cons_of_mem hslash
    exact ⟨port, some path, rfl, hport⟩
  · exact ⟨behind, none, (List.append_nil behind).symm, hslash⟩

theorem readsRight_of_coloned (h : cb.bytes = bytes "http://" ++ rest) (hcoloned : Coloned rest) : ReadsRight cb := by
  obtain ⟨host, behind, rfl, hcolon, hslash, hport⟩ := hcoloned
  have hrun := callback_colon h hcolon
  refine ⟨?_, ?_, ⟨_, hrun⟩⟩
  · intro u hu
    obtain ⟨rfl, port, hsome, rfl⟩ := Url.parts hcolon hslash (h.symm.trans hu)
    have hdigits := u.digits port hsome
    obtain ⟨htake, hpath⟩ := @takeWhile_port port u.path (slash_notMem_digits hdigits)
    have hlt := hport u.host_ne (by rwa [htake])
    rw [htake] at hlt
    rw [hrun, if_neg u.host_ne, hpath, atoi_port hdigits, Url.portNumber, hsome, Option.getD_some]
    have hmin : min (digitsVal port : ℤ) (2 ^ 31 - 1) = digitsVal port := by omega
    rw [hmin]
    push_cast
    simp only [Nat.cast_eq_zero]
  · intro hhostless
    rw [hrun]
    by_cases hempty : host = []
    · rw [if_pos hempty]
    · obtain ⟨c, host, rfl⟩ := List.exists_cons_of_ne_nil hempty
      rcases hhostless _ h c rfl with rfl | rfl
      · exact absurd List.mem_cons_self hcolon
      · exact absurd List.mem_cons_self hslash

theorem coloned_of_readsRight (h : cb.bytes = bytes "http://" ++ rest) (hright : ReadsRight cb) : Coloned rest := by
  have hmem : 58 ∈ rest := by
    by_contra hcolon
    obtain ⟨r, hr⟩ := hright.safe
    rw [callback_noColon h hcolon] at hr
    cases hr
  obtain ⟨host, behind, rfl, hcolon⟩ := List.eq_append_cons_of_mem hmem
  have hrun := callback_colon h hcolon
  have hslash : 47 ∉ host := by
    intro hmem
    rw [if_neg (List.ne_nil_of_mem hmem)] at hrun
    obtain ⟨front, path, rfl, hfront⟩ := List.eq_append_cons_of_mem hmem
    by_cases hempty : front = []
    · -- the host is empty, and is not refused
      have hnone := hright.refused (by
        intro rest hrest c hc
        rw [h, hempty] at hrest
        rw [← List.append_cancel_left hrest] at hc
        exact .inr (Option.some.inj hc).symm)
      rw [hrun] at hnone
      cases hnone
    · -- the host has the path in it
      have hurl := hright.url ⟨front, none, some (path ++ 58 :: behind), hempty,
        fun hc => hcolon (List.mem_append_left _ hc), hfront, nofun⟩ (by rw [h, Url.text]; simp)
      rw [hrun] at hurl
      have hhost := congrArg Callback.cbHost (Option.some.inj (Except.ok.inj hurl))
      exact absurd (List.append_right_eq_self.mp hhost) (List.cons_ne_nil 47 path)
  obtain ⟨port, path, rfl, hport⟩ := exists_parts behind
  refine ⟨host, _, rfl, hcolon, hslash, ?_⟩
  rw [takeWhile_port hport |>.1]
  intro hempty hdigits
  have hurl := hright.url ⟨host, some port, path, hempty, hcolon, hslash, by simpa using hdigits⟩ h
  rw [hrun, if_neg hempty, atoi_port hdigits] at hurl
  have hnumber := congrArg Callback.cbPort (Option.some.inj (Except.ok.inj hurl))
  dsimp only [Url.portNumber, Option.getD_some] at hnumber
  -- a number that is no `int` is read as the greatest
  split_ifs at hnumber <;> omega

end Reading

/-- **Which URLs are read right.** -/
theorem callback_iff (cb : CStr) : ReadsRight cb ↔ ∀ rest, cb.bytes = bytes "http://" ++ rest → Coloned rest := by
  constructor
  · exact fun hright rest h => coloned_of_readsRight h hright
  · intro hall
    by_cases hhttp : bytes "http://" <+: cb.bytes
    · obtain ⟨rest, h⟩ := hhttp
      exact readsRight_of_coloned h.symm (hall rest h.symm)
    · have hrun := callback_other hhttp
      exact ⟨fun u hu => absurd (hu ▸ u.http_text) hhttp, fun _ => hrun, ⟨_, hrun⟩⟩

example : callback (.lit "http://192.168.1.2:80/notify") = .ok (some ⟨bytes "192.168.1.2", 80, bytes "notify"⟩) := rfl

/-- A URL without a port. -/
theorem portless_faults : ¬ReadsRight (.lit "http://192.168.1.2/notify") := by
  intro hright
  obtain ⟨r, hr⟩ := hright.safe
  have hfault := @callback_noColon (.lit "http://192.168.1.2/notify") (bytes "192.168.1.2/notify") rfl (by decide)
  rw [hfault] at hr
  cases hr

end SplitUrl
end Upnp
end Router
