/-
# A request to the web server

`router/httpd/httpd.c`: `handle_request` reads a request, looks whether the client may log in (`http_login_check`),
finds the handler of the file, checks the credentials (`auth_check`), and calls the handler's functions. The session is
four globals: `login_ip`, `login_timestamp`, `login_ip_tmp` and `login_try`.

Addresses are as in `s_addr`, so 0x100007f is the loopback address. Times are `uptime()`, which is called in
`http_login_timeout` and in `http_login`. What `do_auth` sets, the NVRAM variables that choose the file for a directory,
and the integers in front of `b64_decode_table` (a `char` is signed) are inputs. The header is given as its lines in
front of the blank line, in texts without NUL. `redirect` is 0 wherever it is looked at.
-/
import RouterFirmware.Lib.Search
import RouterFirmware.Lib.Parse

namespace Router
namespace Httpd

open CText

/-! ### The session -/

/-- The globals. -/
structure Session where
  loginIp : UInt32
  loginTimestamp : UInt32
  loginIpTmp : UInt32
  loginTry : UInt32
deriving DecidableEq

def Session.init : Session := ⟨0, 0, 0, 0⟩

def SERVER_PORT : ℕ := 80

/-- 127.0.0.1. -/
def loopback : UInt32 := 0x100007f

/-- `http_login_cache(u)`. -/
def httpLoginCache (ip : UInt32) (s : Session) : Session := { s with loginIpTmp := ip }

/-- `http_login(ip)`, at `now`. -/
def httpLogin (port : ℕ) (ip now : UInt32) (s : Session) : Session :=
  if port ≠ SERVER_PORT ∨ ip = loopback then s
  else { s with loginIp := ip, loginTry := 0, loginTimestamp := now }

/-- `http_logout(ip)`. -/
def httpLogout (ip : UInt32) (s : Session) : Session :=
  if ip = s.loginIp then { s with loginTry := s.loginIp, loginIp := 0, loginTimestamp := 0 } else s

/-- `http_login_timeout(ip)`, at `now`. -/
def httpLoginTimeout (ip now : UInt32) (s : Session) : Session :=
  if (s.loginIp ≠ 0 ∧ s.loginIp ≠ ip) ∧ 60 < now - s.loginTimestamp then httpLogout s.loginIp s else s

/-- `http_login_check()`, at `now`. -/
def httpLoginCheck (port : ℕ) (now : UInt32) (s : Session) : Session × Bool :=
  if port ≠ SERVER_PORT ∨ s.loginIpTmp = loopback then (s, true)
  else
    let s := httpLoginTimeout s.loginIpTmp now s
    if s.loginIp ≠ 0 ∧ s.loginIp ≠ s.loginIpTmp then (s, false) else (s, true)

/-! ### Credentials -/

/-- `b64_decode_table[c]`, where `before` are the integers in front of the table. -/
def b64Digit (before : UInt8 → UInt32) (c : UInt8) : UInt32 :=
  if 128 ≤ c then before c
  else if 65 ≤ c && c ≤ 90 then c.toUInt32 - 65
  else if 97 ≤ c && c ≤ 122 then c.toUInt32 - 71
  else if isDigit c then c.toUInt32 + 4
  else if c = 43 then 62
  else if c = 47 then 63
  else -1

/-- `phase`, `prev_d` and `space`. -/
structure Decoder where
  phase : ℕ
  prev : UInt32
  space : Bytes

/-- A byte of the text. -/
def Decoder.step (before : UInt8 → UInt32) (size : ℕ) (x : Decoder) (cp : UInt8) : Decoder :=
  let d := b64Digit before cp
  if d = -1 then x
  else
    let put (c : UInt32) : Bytes := if x.space.length < size then x.space ++ [c.toUInt8] else x.space
    match x.phase with
    | 0 => ⟨1, d, x.space⟩
    | 1 => ⟨2, d, put (x.prev <<< 2 ||| (d &&& 0x30) >>> 4)⟩
    | 2 => ⟨3, d, put ((x.prev &&& 0xf) <<< 4 ||| (d &&& 0x3c) >>> 2)⟩
    | _ => ⟨0, d, put ((x.prev &&& 0x3) <<< 6 ||| d)⟩

/-- `b64_decode(str, space, size)`. -/
def b64Decode (before : UInt8 → UInt32) (str : Bytes) (size : ℕ) : Bytes :=
  (str.foldl (Decoder.step before size) ⟨0, 0, []⟩).space

/-- Whether `auth_check(dirname, authorization)` returns 1. -/
def authCheck (before : UInt8 → UInt32) (authUserid authPasswd : Bytes) (authorization : Option Bytes) : Bool :=
  if authPasswd = [] then true
  else
    match authorization with
    | none => false
    | some authorization =>
      if authorization.take 6 ≠ bytes "Basic " then false
      else
        match strsep [58] (cstr (b64Decode before (authorization.drop 6) 500)).bytes with
        | (_, none) => false
        | (user, some authpass) => authUserid = user && authPasswd = authpass

/-! ### Handlers -/

/-- `match_one(pattern, patternlen, string)`. -/
def matchOne : Bytes → Bytes → Bool
  | [], string => string.isEmpty
  | 42 :: 42 :: p, string => (List.range (string.length + 1)).any fun i => matchOne p (string.drop i)
  | 42 :: p, string => (List.range ((string.takeWhile (· ≠ 47)).length + 1)).any fun i => matchOne p (string.drop i)
  | c :: p, string =>
    match string with
    | [] => false
    | d :: string => (c = 63 || c = d) && matchOne p string

/-- `match(pattern, string)`. -/
def matchPattern (pattern string : Bytes) : Bool := (pattern.splitOn 124).any fun p => matchOne p string

/-- `struct mime_handler`, with which functions it has. -/
structure MimeHandler where
  pattern : Bytes
  input : Bool
  output : Bool
  auth : Bool
deriving DecidableEq

/-- `mime_handlers`, whose `auth` is `do_auth`. -/
def mimeHandlers : List MimeHandler :=
  [⟨bytes "**.asp", false, true, true⟩, ⟨bytes "**.css", false, true, true⟩, ⟨bytes "**.gif", false, true, true⟩,
    ⟨bytes "**.jpg", false, true, true⟩, ⟨bytes "**.js", false, true, true⟩, ⟨bytes "**.cab", false, true, true⟩,
    ⟨bytes "**.CFG", false, true, true⟩, ⟨bytes "apply.cgi*", true, true, true⟩,
    ⟨bytes "upgrade.cgi*", true, true, true⟩, ⟨bytes "upload.cgi*", true, true, true⟩,
    ⟨bytes "syslog.cgi*", false, true, true⟩, ⟨bytes "webcam.cgi*", false, true, true⟩]

/-! ### A request -/

/-- What comes on a connection, and what else the answer depends on. -/
structure Request where
  ip : UInt32
  line : Option Bytes
  headers : List Bytes
  now : UInt32
  loginTime : UInt32
  authUserid : Bytes
  authPasswd : Bytes
  before : UInt8 → UInt32
  wanNat : Bytes
  wlMode : Bytes

/-- The address in host order, on a processor that has the low byte first. -/
def ntohl (a : UInt32) : BitVec 32 :=
  a.toBitVec.extractLsb' 0 8 ++ a.toBitVec.extractLsb' 8 8 ++ a.toBitVec.extractLsb' 16 8 ++ a.toBitVec.extractLsb' 24 8

/-- What is sent, what `auth_check` returned if it was called, and the handler whose functions were called. -/
structure Answer where
  status : ℕ
  text : Bytes
  auth : Option Bool
  handler : Option MimeHandler
deriving DecidableEq

/-- `send_error(status, title, extra_header, text)`, without a look at the credentials. -/
def sendError (status : ℕ) (text : Bytes) : Answer := ⟨status, text, none, none⟩

/-- The method, the path and the protocol of the first line. -/
def parseLine (line : Bytes) : Option (Bytes × Bytes × Bytes) :=
  match strsep [32] line with
  | (_, none) => none
  | (method, some path) =>
    match strsep [32] (path.dropWhile (· = 32)) with
    | (_, none) => none
    | (path, some protocol) => some (method, path, (strsep [32] (protocol.dropWhile (· = 32))).1)

/-- The value of the last Authorization header. -/
def authorizationOf (headers : List Bytes) : Option Bytes :=
  (headers.filter (imatchPrefix · "Authorization:")).getLast?.map fun cur =>
    (cur.drop 14).dropWhile fun c => c = 32 || c = 9

/-- The file for a directory. -/
def defaultFile (wanNat wlMode : Bytes) : Bytes :=
  if wanNat = bytes "1" then
    if wlMode = bytes "ap" || wlMode = bytes "re" then bytes "Wizard_Gateway.asp" else bytes "Wizard_Adapter.asp"
  else if wlMode = bytes "ap" then bytes "Wizard_AP.asp"
  else if wlMode = bytes "sta" then bytes "Wizard_Adapter.asp"
  else if wlMode = bytes "re" then bytes "Wizard_Repeater.asp"
  else bytes "index.asp"

/-- A file outside the directory. The byte in front of the file is the slash of the path. -/
def illegalFile (file : Bytes) : Bool :=
  file.head? = some 47 || file = bytes ".." || file.take 3 = bytes "../" || (strstr (bytes "/../") file).isSome ||
    (47 :: file).drop ((47 :: file).length - 3) = bytes "/.."

/-- The end of `handle_request`, for a file that was asked for. -/
def serveFile (port : ℕ) (r : Request) (method file : Bytes) (s : Session) : Session × Answer :=
  let logoutIf (s : Session) : Session := if file = bytes "Logout.asp" then httpLogout s.loginIpTmp s else s
  match mimeHandlers.find? fun h => matchPattern h.pattern file with
  | none => (logoutIf s, sendError 404 (bytes "File not found."))
  | some handler =>
    if handler.auth && !authCheck r.before r.authUserid r.authPasswd (authorizationOf r.headers) then
      (httpLogout s.loginIpTmp s, ⟨401, bytes "Authorization required.", some false, none⟩)
    else
      let auth := if handler.auth then some true else none
      let s := httpLogin port s.loginIpTmp r.loginTime s
      if imatch method "post" && !handler.input then
        (s, ⟨501, bytes "That method is not implemented.", auth, none⟩)
      else (logoutIf s, ⟨200, [], auth, some handler⟩)

/-- `handle_request()`, on a connection of `r.ip`. -/
def handleRequest (port : ℕ) (r : Request) (s : Session) : Session × Answer :=
  let s := httpLoginCache r.ip s
  match r.line with
  | none => (s, sendError 400 (bytes "No request found."))
  | some line =>
    match parseLine line with
    | none => (s, sendError 400 (bytes "Can't parse request."))
    | some (method, path, _) =>
      if !imatch method "get" && !imatch method "post" then (s, sendError 501 (bytes "That method is not implemented."))
      else
        match path with
        | [] => (s, sendError 400 (bytes "Bad filename."))
        | c :: file =>
          if c ≠ 47 then (s, sendError 400 (bytes "Bad filename."))
          else if illegalFile file then (s, sendError 400 (bytes "Illegal filename."))
          else
            let checked := httpLoginCheck port r.now s
            if port = SERVER_PORT ∧ checked.2 = false then
              (checked.1, sendError 200 (bytes "Please log out user, " ++ inetNtoa (ntohl checked.1.loginIp) ++
                bytes ", first or wait for session timeout(60 seconds)."))
            else
              let file := if file = [] || file.getLast? = some 47 then defaultFile r.wanNat r.wlMode else file
              serveFile port r method file checked.1

end Httpd
end Router
