/-
# One client at a time

The session belongs to the client whose request was authenticated last, until it logs out, fails to authenticate, or
has been idle for more than 60 seconds when another client comes. In every run a request reaches the functions of a
handler only if its credentials pass and the session is free for it, and `login_ip` is 0 or the address of a client
whose last request that came to `auth_check` passed it (`login_exclusive`).

A request may be answered without a look at its credentials, for a file that no handler has or a line that cannot be
parsed. Such a request does not end the session of its client (`session_after_not_found`).
-/
import RouterFirmware.Lib.Run
import RouterFirmware.Httpd.Request

namespace Router
namespace Httpd

open CText

variable {r : Request} {s s' : Session} {a : Answer} {es : List (Request × Answer)}

/-! ### What a request does to the session -/

/-- The session stays as it is. -/
def Keeps (s s' : Session) : Prop := s'.loginIp = s.loginIp ∧ s'.loginTimestamp = s.loginTimestamp

/-- What a request does, with what `auth_check` returns. -/
inductive Effect (r : Request) (s s' : Session) : Option Bool → Prop
  | ended {auth : Option Bool} : s'.loginIp = 0 → Effect r s s' auth
  | unchecked : Keeps s s' → Effect r s s' none
  | other {auth : Option Bool} : Keeps s s' → s.loginIp ≠ r.ip → Effect r s s' auth
  | login : r.ip ≠ loopback → s'.loginIp = r.ip → s'.loginTimestamp = r.loginTime → Effect r s s' (some true)

/-- The session is free for a request. -/
def Free (r : Request) (s : Session) : Prop :=
  r.ip = loopback ∨ s.loginIp = 0 ∨ s.loginIp = r.ip ∨ 60 < r.now - s.loginTimestamp

/-- Whether the credentials of a request pass. -/
def Request.passes (r : Request) : Bool :=
  authCheck r.before r.authUserid r.authPasswd (authorizationOf r.headers)

theorem Keeps.rfl : Keeps s s := ⟨Eq.refl _, Eq.refl _⟩

theorem Keeps.trans {s'' : Session} (h : Keeps s s') (h' : Keeps s' s'') : Keeps s s'' :=
  ⟨h'.1.trans h.1, h'.2.trans h.2⟩

theorem httpLogout_cases (ip : UInt32) (s : Session) :
    (httpLogout ip s).loginIp = 0 ∨ Keeps s (httpLogout ip s) ∧ s.loginIp ≠ ip := by
  unfold httpLogout
  split_ifs with h
  · exact .inl rfl
  · exact .inr ⟨.rfl, Ne.symm h⟩

/-- What `http_login_check` does. -/
theorem httpLoginCheck_spec (now : UInt32) (s : Session) :
    let checked := httpLoginCheck SERVER_PORT now s
    (Keeps s checked.1 ∨ checked.1.loginIp = 0) ∧ checked.1.loginIpTmp = s.loginIpTmp ∧
      (checked.2 = true → s.loginIpTmp = loopback ∨ s.loginIp = 0 ∨ s.loginIp = s.loginIpTmp ∨
        60 < now - s.loginTimestamp) := by
  dsimp only
  unfold httpLoginCheck
  by_cases hloop : s.loginIpTmp = loopback
  · rw [if_pos (.inr hloop)]
    exact ⟨.inl .rfl, rfl, fun _ => .inl hloop⟩
  · rw [if_neg (not_or.mpr ⟨not_not.mpr rfl, hloop⟩)]
    unfold httpLoginTimeout
    by_cases htime : (s.loginIp ≠ 0 ∧ s.loginIp ≠ s.loginIpTmp) ∧ 60 < now - s.loginTimestamp
    · have hout : httpLogout s.loginIp s = { s with loginTry := s.loginIp, loginIp := 0, loginTimestamp := 0 } :=
        if_pos rfl
      rw [if_pos htime, hout]
      exact ⟨.inr rfl, rfl, fun _ => .inr (.inr (.inr htime.2))⟩
    · rw [if_neg htime]
      dsimp only
      split_ifs with hbusy
      · exact ⟨.inl .rfl, rfl, fun h => nomatch h⟩
      · refine ⟨.inl .rfl, rfl, fun _ => ?_⟩
        by_cases hzero : s.loginIp = 0
        · exact .inr (.inl hzero)
        · exact .inr (.inr (.inl (not_not.mp fun hne => hbusy ⟨hzero, hne⟩)))

/-- Every handler has `do_auth`. -/
theorem auth_of_mem : ∀ h ∈ mimeHandlers, h.auth = true := by decide

/-- A logout after the request. -/
theorem Effect.logout {auth : Option Bool} (h : Effect r s s' auth) {s'' : Session} (hlogout : s''.loginIp = 0 ∨ Keeps s' s'') :
    Effect r s s'' auth := by
  rcases hlogout with hzero | hkeeps
  · exact .ended hzero
  · cases h with
    | ended hzero => exact .ended (hkeeps.1.trans hzero)
    | unchecked h => exact .unchecked (h.trans hkeeps)
    | other h hne => exact .other (h.trans hkeeps) hne
    | login hloop hip htime => exact .login hloop (hkeeps.1.trans hip) (hkeeps.2.trans htime)

/-- What was done before it. -/
theorem Effect.of_check {auth : Option Bool} {s₁ : Session} (hcheck : Keeps s s₁ ∨ s₁.loginIp = 0)
    (h : Effect r s₁ s' auth) : Effect r s s' auth := by
  cases h with
  | ended hzero => exact .ended hzero
  | unchecked h =>
    rcases hcheck with hkeeps | hzero
    · exact .unchecked (hkeeps.trans h)
    · exact .ended (h.1.trans hzero)
  | other h hne =>
    rcases hcheck with hkeeps | hzero
    · refine .other (hkeeps.trans h) ?_
      rwa [← hkeeps.1]
    · exact .ended (h.1.trans hzero)
  | login hloop hip htime => exact .login hloop hip htime

/-- The logout of `Logout.asp`. -/
theorem logoutIf_cases (file : Bytes) (s : Session) :
    (if file = bytes "Logout.asp" then httpLogout s.loginIpTmp s else s).loginIp = 0 ∨
      Keeps s (if file = bytes "Logout.asp" then httpLogout s.loginIpTmp s else s) := by
  split_ifs
  · exact (httpLogout_cases s.loginIpTmp s).imp_right And.left
  · exact .inr .rfl

/-- What `http_login` does after the credentials have passed. -/
theorem effect_httpLogin (hloop : s.loginIp ≠ loopback) :
    Effect r s (httpLogin SERVER_PORT r.ip r.loginTime s) (some true) := by
  unfold httpLogin
  by_cases hip : r.ip = loopback
  · rw [if_pos (.inr hip)]
    refine .other .rfl ?_
    rwa [hip]
  · rw [if_neg (not_or.mpr ⟨not_not.mpr rfl, hip⟩)]
    exact .login hip rfl rfl

/-- What happens from the look for a handler on. -/
theorem serveFile_spec {method file : Bytes} (htmp : s.loginIpTmp = r.ip) (hloop : s.loginIp ≠ loopback) :
    let served := serveFile SERVER_PORT r method file s
    Effect r s served.1 served.2.auth ∧ (served.2.handler ≠ none → r.passes = true) := by
  dsimp only
  unfold serveFile
  dsimp only
  cases hfind : mimeHandlers.find? fun h => matchPattern h.pattern file with
  | none =>
    refine ⟨?_, fun h => absurd rfl h⟩
    exact (Effect.unchecked .rfl).logout (logoutIf_cases file s)
  | some handler =>
    have hauth : handler.auth = true := auth_of_mem handler (List.mem_of_find?_eq_some hfind)
    simp only [hauth, Bool.true_and, if_true]
    by_cases hpass : r.passes = true
    · have hpass' : authCheck r.before r.authUserid r.authPasswd (authorizationOf r.headers) = true := hpass
      have hlogin : Effect r s (httpLogin SERVER_PORT s.loginIpTmp r.loginTime s) (some true) := by
        rw [htmp]
        exact effect_httpLogin hloop
      rw [hpass', if_neg (by decide)]
      split_ifs
      · exact ⟨hlogin, fun h => absurd rfl h⟩
      · exact ⟨hlogin.logout ((httpLogout_cases ..).imp_right And.left), fun _ => hpass⟩
      · exact ⟨hlogin, fun _ => hpass⟩
    · have hpass' : authCheck r.before r.authUserid r.authPasswd (authorizationOf r.headers) = false :=
        Bool.eq_false_iff.mpr hpass
      rw [hpass', if_pos (by decide)]
      refine ⟨?_, fun h => absurd rfl h⟩
      rcases httpLogout_cases s.loginIpTmp s with hzero | ⟨hkeeps, hne⟩
      · exact .ended hzero
      · rw [htmp] at hne
        exact .other hkeeps hne

/-- What happens from `http_login_check` on. -/
theorem served_spec (hloop : s.loginIp ≠ loopback) {method file text : Bytes} :
    let checked := httpLoginCheck SERVER_PORT r.now (httpLoginCache r.ip s)
    let handled := if SERVER_PORT = SERVER_PORT ∧ checked.2 = false then (checked.1, sendError 200 text)
      else serveFile SERVER_PORT r method file checked.1
    Effect r s handled.1 handled.2.auth ∧ (handled.2.handler ≠ none → r.passes = true ∧ Free r s) := by
  obtain ⟨hcheck, htmp, hfree⟩ := httpLoginCheck_spec r.now (httpLoginCache r.ip s)
  dsimp only
  by_cases hbusy : (httpLoginCheck SERVER_PORT r.now (httpLoginCache r.ip s)).2 = false
  · rw [if_pos ⟨rfl, hbusy⟩]
    refine ⟨?_, fun h => absurd rfl h⟩
    rcases hcheck with hkeeps | hzero
    · exact .unchecked hkeeps
    · exact .ended hzero
  · rw [if_neg fun h => hbusy h.2]
    have hloop' : (httpLoginCheck SERVER_PORT r.now (httpLoginCache r.ip s)).1.loginIp ≠ loopback := by
      rcases hcheck with hkeeps | hzero
      · rw [hkeeps.1]
        exact hloop
      · rw [hzero]
        decide
    obtain ⟨heffect, hpasses⟩ := @serveFile_spec r _ method file htmp hloop'
    exact ⟨heffect.of_check hcheck, fun h => ⟨hpasses h, hfree (Bool.not_eq_false _ ▸ hbusy)⟩⟩

/-- **What a request does.** -/
theorem handleRequest_spec (hloop : s.loginIp ≠ loopback) :
    let handled := handleRequest SERVER_PORT r s
    Effect r s handled.1 handled.2.auth ∧ (handled.2.handler ≠ none → r.passes = true ∧ Free r s) := by
  have hearly : ∀ status text, Effect r s (httpLoginCache r.ip s) (sendError status text).auth ∧
      ((sendError status text).handler ≠ none → r.passes = true ∧ Free r s) :=
    fun _ _ => ⟨.unchecked .rfl, fun h => absurd rfl h⟩
  dsimp only
  unfold handleRequest
  cases r.line with
  | none => exact hearly _ _
  | some line =>
    dsimp only
    cases parseLine line with
    | none => exact hearly _ _
    | some parsed =>
      obtain ⟨method, path, protocol⟩ := parsed
      dsimp only
      by_cases hmethod : (!imatch method "get" && !imatch method "post") = true
      · rw [if_pos hmethod]
        exact hearly _ _
      · rw [if_neg hmethod]
        cases path with
        | nil => exact hearly _ _
        | cons c file =>
          dsimp only
          by_cases hslash : c ≠ 47
          · rw [if_pos hslash]
            exact hearly _ _
          · rw [if_neg hslash]
            by_cases hillegal : illegalFile file = true
            · rw [if_pos hillegal]
              exact hearly _ _
            · rw [if_neg hillegal]
              exact served_spec hloop

/-! ### A run -/

/-- The last request of a client that came to `auth_check`. -/
def lastChecked (ip : UInt32) (es : List (Request × Answer)) : Option (Request × Answer) :=
  es.reverse.find? fun e => e.1.ip = ip && e.2.auth.isSome

/-- The last request of a client that was authenticated. -/
def lastAuthenticated (ip : UInt32) (es : List (Request × Answer)) : Option (Request × Answer) :=
  es.reverse.find? fun e => e.1.ip = ip && e.2.auth = some true

/-- The session belongs to nobody, or to a client whose last request that came to `auth_check` passed it then. -/
structure Owned (es : List (Request × Answer)) (s : Session) : Prop where
  loop : s.loginIp ≠ loopback
  owner : s.loginIp = 0 ∨ ∃ e, lastChecked s.loginIp es = some e ∧ e.2.auth = some true ∧
    s.loginTimestamp = e.1.loginTime

/-- If it passed, it is the last that was authenticated, too. -/
theorem lastAuthenticated_of_lastChecked {ip : UInt32} {e : Request × Answer} (h : lastChecked ip es = some e)
    (hpass : e.2.auth = some true) : lastAuthenticated ip es = some e := by
  unfold lastChecked at h
  unfold lastAuthenticated
  rw [List.find?_eq_some_iff_append] at h ⊢
  obtain ⟨hmatch, later, earlier, hsplit, hlater⟩ := h
  refine ⟨?_, later, earlier, hsplit, ?_⟩
  · rw [Bool.and_eq_true] at hmatch ⊢
    exact ⟨hmatch.1, decide_eq_true hpass⟩
  · intro e' he'
    have hnot := hlater e' he'
    by_contra hmatch'
    simp only [Bool.not_eq_true', Bool.not_eq_false, Bool.and_eq_true, decide_eq_true_eq] at hmatch'
    simp [hmatch'.1, hmatch'.2] at hnot

/-- A request keeps that. -/
theorem Owned.effect (h : Owned es s) (heffect : Effect r s s' a.auth) : Owned (es ++ [(r, a)]) s' := by
  have hsnoc : ∀ ip, lastChecked ip (es ++ [(r, a)]) =
      if r.ip = ip ∧ a.auth.isSome then some (r, a) else lastChecked ip es := by
    intro ip
    unfold lastChecked
    rw [List.reverse_append, List.reverse_singleton, List.singleton_append, List.find?_cons]
    by_cases hmatch : r.ip = ip ∧ a.auth.isSome = true
    · rw [if_pos hmatch]
      simp [hmatch.1, hmatch.2]
    · rw [if_neg hmatch]
      have hfalse : (decide (r.ip = ip) && a.auth.isSome) = false := by
        rw [← Bool.not_eq_true, Bool.and_eq_true, decide_eq_true_eq]
        exact hmatch
      rw [hfalse]
  -- a session that is kept, by a request that does not count for its owner
  have hkept : Keeps s s' → ¬(r.ip = s.loginIp ∧ a.auth.isSome = true) → Owned (es ++ [(r, a)]) s' := by
    intro hkeeps hnot
    refine ⟨?_, ?_⟩
    · rw [hkeeps.1]
      exact h.loop
    · rw [hkeeps.1, hkeeps.2, hsnoc, if_neg hnot]
      exact h.owner
  generalize hauth : a.auth = auth at heffect
  cases heffect with
  | ended hzero =>
    refine ⟨?_, .inl hzero⟩
    rw [hzero]
    decide
  | unchecked hkeeps =>
    apply hkept hkeeps
    rw [hauth]
    exact fun hsome => nomatch hsome.2
  | other hkeeps hne => exact hkept hkeeps fun hsame => hne hsame.1.symm
  | login hloop hip htime =>
    refine ⟨?_, .inr ⟨(r, a), ?_, hauth, htime⟩⟩
    · rw [hip]
      exact hloop
    · rw [hsnoc, hauth, if_pos ⟨hip.symm, rfl⟩]

/-- **One client at a time**: whenever a request comes, `login_ip` is 0 or the address of a client whose last request
that came to `auth_check` passed it; and the request reaches the functions of a handler only if its credentials pass,
and it comes from the loopback address, or `login_ip` is 0 or its own address, or more than 60 seconds have passed
since the last authenticated request of `login_ip`. -/
theorem login_exclusive
    (hrun : Run.Trace (fun s e s' => handleRequest SERVER_PORT e.1 s = (s', e.2)) Session.init es s) :
    (s.loginIp = 0 ∨ ∃ e, lastChecked s.loginIp es = some e ∧ e.2.auth = some true) ∧
      ∀ r : Request, (∀ e ∈ es, e.1.loginTime ≤ r.now) → (handleRequest SERVER_PORT r s).2.handler ≠ none →
        r.passes = true ∧ (r.ip = loopback ∨ s.loginIp = 0 ∨ s.loginIp = r.ip ∨
          ∃ e, lastAuthenticated s.loginIp es = some e ∧ 60 < r.now.toNat - e.1.loginTime.toNat) := by
  have howned : Owned es s := by
    apply Run.Trace.inv (I := fun es s => Owned es s) _ _ hrun
    · exact ⟨by decide, .inl rfl⟩
    · rintro es s ⟨r, a⟩ s' h hstep
      have heffect := (@handleRequest_spec r s h.loop).1
      rw [hstep] at heffect
      exact h.effect heffect
  refine ⟨howned.owner.imp_right fun ⟨e, hlast, hpass, _⟩ => ⟨e, hlast, hpass⟩, fun r hclock hreach => ?_⟩
  obtain ⟨hpasses, hfree⟩ := (handleRequest_spec howned.loop).2 hreach
  refine ⟨hpasses, ?_⟩
  rcases hfree with hloop | hzero | hown | htime
  · exact .inl hloop
  · exact .inr (.inl hzero)
  · exact .inr (.inr (.inl hown))
  · rcases howned.owner with hzero | ⟨e, hlast, hpass, hstamp⟩
    · exact .inr (.inl hzero)
    · refine .inr (.inr (.inr ⟨e, lastAuthenticated_of_lastChecked hlast hpass, ?_⟩))
      have hmem : e ∈ es := List.mem_reverse.mp (List.mem_of_find?_eq_some hlast)
      rw [hstamp] at htime
      have hsub := UInt32.toNat_sub_of_le _ _ (hclock e hmem)
      have hlt := UInt32.lt_iff_toNat_lt.mp htime
      rwa [hsub] at hlt

/-- A request for a file, with the credentials admin and admin. -/
def visit (ip now : UInt32) (file : String) : Request where
  ip := ip
  line := some (bytes "GET /" ++ bytes file ++ bytes " HTTP/1.0\r\n")
  headers := [bytes "Authorization: Basic YWRtaW46YWRtaW4=\r\n"]
  now := now
  loginTime := now
  authUserid := bytes "admin"
  authPasswd := bytes "admin"
  before := fun _ => 0
  wanNat := []
  wlMode := []

/-- The first client, 192.168.1.2, has logged in. -/
def loggedIn : Session × Answer := handleRequest SERVER_PORT (visit 0x201a8c0 100 "index.asp") .init

/-- A second client comes 61 seconds later. -/
theorem login_exclusive_second :
    (visit 0x301a8c0 161 "index.asp").passes = true ∧ ∃ e, lastAuthenticated loggedIn.1.loginIp
      [(visit 0x201a8c0 100 "index.asp", loggedIn.2)] = some e ∧ 60 < (161 : UInt32).toNat - e.1.loginTime.toNat := by
  have hrun : Run.Trace (fun s e s' => handleRequest SERVER_PORT e.1 s = (s', e.2)) Session.init
      [(visit 0x201a8c0 100 "index.asp", loggedIn.2)] loggedIn.1 := .cons rfl .nil
  have hclock : ∀ e ∈ [(visit 0x201a8c0 100 "index.asp", loggedIn.2)], e.1.loginTime ≤ 161 := by
    intro e he
    cases List.mem_singleton.mp he
    decide
  have hreach : (handleRequest SERVER_PORT (visit 0x301a8c0 161 "index.asp") loggedIn.1).2.handler ≠ none := by
    decide
  have hip : loggedIn.1.loginIp = 0x201a8c0 := by decide
  obtain ⟨hpasses, hfree⟩ := (login_exclusive hrun).2 (visit 0x301a8c0 161 "index.asp") hclock hreach
  refine ⟨hpasses, ?_⟩
  rw [hip] at hfree ⊢
  rcases hfree with hloop | hzero | hown | htime
  · exact absurd hloop (by decide)
  · exact absurd hzero (by decide)
  · exact absurd hown (by decide)
  · exact htime

/-- The session of a client stays when its next request is for a file that is not found. -/
theorem session_after_not_found :
    let missing := handleRequest SERVER_PORT (visit 0x201a8c0 110 "none") loggedIn.1
    Run.Trace (fun s e s' => handleRequest SERVER_PORT e.1 s = (s', e.2)) Session.init
        [(visit 0x201a8c0 100 "index.asp", loggedIn.2), (visit 0x201a8c0 110 "none", missing.2)] missing.1 ∧
      missing.1.loginIp = 0x201a8c0 ∧ missing.2.status = 404 ∧ missing.2.auth = none :=
  ⟨.cons rfl (.cons rfl .nil), by decide, by decide, by decide⟩

end Httpd
end Router
