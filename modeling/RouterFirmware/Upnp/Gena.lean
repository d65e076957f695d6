/-
# GENA subscriptions

`upnp/upnp/gena.c`: clients subscribe to a service and are sent notifications of its evented variables, all of them
a second after the subscription and those that have changed at any time. The `event_key` of a subscription is the
number of its next notification, and is 0 until the first was sent.

Each notification is sent on a connection of its own, which waits for the reply and knows the subscription by its
address. A reply other than 200 deletes the subscription at that address.

An address is a number; `malloc` returns one that is not in use. What the environment decides is part of an event:
the time, the address, what the variables hold, which connections are made and written to. The bytes of a SID that
nothing sets (`d[13]` to `d[15]`) are an input as well. Each subscription has, besides what is stored, the number it
was made with and what was sent to it; a connection has the number of its subscription.
-/
import RouterFirmware.Lib.Parse
import Mathlib.Logic.Function.Basic

namespace Router
namespace Upnp

open CMem CText

/-! ### Services and subscriptions -/

/-- `StateVar`, of which `flags` has VAR_EVENTED and VAR_CHANGED. -/
structure StateVar where
  evented : Bool
  changed : Bool
deriving DecidableEq

/-- A NOTIFY message: SEQ, and the variables in its body with their values. -/
structure Notification where
  seq : UInt32
  vars : List (ℕ × Bytes)
deriving DecidableEq

/-- What a SID is made of: `d[0]` to `d[11]`, `uuid_count`, and `d[13]` to `d[15]`. -/
structure Uuid where
  lanHwaddr : Fin 12 → UInt8
  count : ℕ
  rest : Fin 3 → UInt8

/-- `Subscription`. -/
structure Subscription where
  addr : ℕ
  sid : Bytes
  eventKey : UInt32
  expires : ℤ
  uuid : Uuid
  sent : List Notification

/-- `struct gena_connection`. -/
structure GenaConnection where
  fd : ℕ
  sub : ℕ
  count : ℕ

/-- `struct Service`, with the connections whose `net.arg` it is. -/
structure Service where
  vars : List StateVar
  changed : Bool
  subscriptions : List Subscription
  connections : List GenaConnection

/-- All services, and `uuid_count`. -/
structure Gena where
  services : ℕ → Service
  uuidCount : ℕ

/-! ### SIDs -/

/-- `%x`, of a number below 16. -/
def hexDigit (n : ℕ) : UInt8 := if n < 10 then UInt8.ofNat (48 + n) else UInt8.ofNat (87 + n)

/-- `%02x`. -/
def hex2 (b : UInt8) : Bytes := [hexDigit (b.toNat / 16), hexDigit (b.toNat % 16)]

/-- The bytes of a SID, as they are printed. -/
def Uuid.bytes (d : Uuid) : List UInt8 := List.ofFn d.lanHwaddr ++ [UInt8.ofNat d.count] ++ List.ofFn d.rest

/-- `uuidstr_create`. -/
def Uuid.str (d : Uuid) : Bytes :=
  let hex (l : List UInt8) : Bytes := l.flatMap hex2
  hex (d.bytes.take 4) ++ [45] ++ hex ((d.bytes.drop 4).take 2) ++ [45] ++ hex ((d.bytes.drop 6).take 2) ++ [45] ++
    hex ((d.bytes.drop 8).take 2) ++ [45] ++ hex (d.bytes.drop 10)

def Uuid.sid (d : Uuid) : Bytes := CText.bytes "uuid:" ++ d.str

/-- `find_by_sid(psvc, sid)`. -/
def findBySid (psvc : Service) (sid : Bytes) (now : ℤ) : Option Subscription :=
  match psvc.subscriptions.find? (·.sid = sid) with
  | none => none
  | some psub => if psub.expires ≠ 0 ∧ psub.expires < now then none else some psub

/-! ### Subscribing -/

/-- The seconds of a TIMEOUT header, and -1 for `infinite`. -/
def timeoutOf (header : Option Bytes) : ℤ :=
  match header with
  | none => 1800
  | some header =>
    if imatchPrefix header "second-" then
      let seconds := header.drop 7
      if imatch seconds "infinite" then -1
      else if (strtoulEnd seconds).2 = some [] then ((strtoulEnd seconds).1 : ℤ).bmod (2 ^ 32) else 1800
    else 1800

/-- `expires`, as a new timeout sets it. -/
def expiresAt (now timeout : ℤ) : ℤ := if timeout = -1 then 0 else (now + timeout).bmod (2 ^ 32)

/-- One service changed. -/
def Gena.modify (g : Gena) (svc : ℕ) (f : Service → Service) : Gena :=
  { g with services := Function.update g.services svc (f (g.services svc)) }

/-- `gena_new_subscription(up, psvc, cb, sid, to, nt)`, where `cb` says that the callback is there and can be split,
and `addr` is what `malloc` returns. -/
def genaNewSubscription (svc : ℕ) (addr : Option ℕ) (lanHwaddr : Fin 12 → UInt8) (rest : Fin 3 → UInt8) (cb : Bool)
    (sid timeout : Option Bytes) (now : ℤ) (g : Gena) : Gena :=
  if sid.isSome || !cb then g
  else
    match addr with
    | none => g
    | some addr =>
      let d : Uuid := ⟨lanHwaddr, g.uuidCount, rest⟩
      let sr : Subscription := {
        addr := addr
        sid := d.sid
        eventKey := 0
        expires := expiresAt now (timeoutOf timeout)
        uuid := d
        sent := [] }
      { g.modify svc fun psvc => { psvc with subscriptions := sr :: psvc.subscriptions } with
        uuidCount := g.uuidCount + 1 }

/-- `gena_renew_subscription(up, psvc, cb, sid, to, nt)`, where `cb` says that there is a callback. -/
def genaRenewSubscription (cb : Bool) (sid timeout : Option Bytes) (now : ℤ) (psvc : Service) : Service :=
  match sid.bind fun sid => findBySid psvc sid now with
  | none => psvc
  | some sr =>
    if cb || timeout.isNone then psvc
    else
      { psvc with
        subscriptions := psvc.subscriptions.map fun s =>
          if s.addr = sr.addr then { s with expires := expiresAt now (timeoutOf timeout) } else s }

/-- `delete_subscription(psvc, sr)`. -/
def deleteSubscription (sr : ℕ) (psvc : Service) : Service :=
  { psvc with subscriptions := psvc.subscriptions.eraseP (·.addr = sr) }

/-- `process_unsubscribe`, for a service that is there. -/
def processUnsubscribe (sid : Option Bytes) (badheaders : Bool) (now : ℤ) (psvc : Service) : Service :=
  match sid.bind fun sid => findBySid psvc sid now with
  | none => psvc
  | some psub => if badheaders then psvc else deleteSubscription psub.addr psvc

/-- `reap_service_subscriptions(psvc, now)`. -/
def reapServiceSubscriptions (now : ℤ) (psvc : Service) : Service :=
  { psvc with subscriptions := psvc.subscriptions.filter fun sr => !(sr.expires ≠ 0 ∧ sr.expires < now) }

/-! ### Notifying -/

/-- `build_notify_body(up, psvc, flags)`: the variables in the body, and whether there are any. With VAR_CHANGED in
the flags only those that have changed are taken, and none has afterwards. -/
def buildNotifyBody (vars : List StateVar) (read : ℕ → Bytes) (varChanged : Bool) : List (ℕ × Bytes) × List StateVar :=
  ((vars.zipIdx.filter fun v => v.1.evented && (!varChanged || v.1.changed)).map fun v => (v.2, read v.2),
    if varChanged then vars.map fun v => { v with changed := false } else vars)

/-- What becomes of the connection to the subscription at an address: its `fd`, if it is made, and whether it can be
written to. -/
abbrev Network := ℕ → Option (ℕ × Bool)

/-- `++sr->event_key`, without 0. -/
def nextKey (key : UInt32) : UInt32 := if key + 1 = 0 then 1 else key + 1

/-- `gena_notify(psvc, sr, body, bodylen)`: the subscription, and the connection that waits for the reply. -/
def genaNotify (net : Network) (body : List (ℕ × Bytes)) (sr : Subscription) : Subscription × Option GenaConnection :=
  match net sr.addr with
  | none => (sr, none)
  | some (fd, written) =>
    (if written then { sr with eventKey := nextKey sr.eventKey, sent := sr.sent ++ [⟨sr.eventKey, body⟩] } else sr,
      some ⟨fd, sr.addr, sr.uuid.count⟩)

/-- The loops that notify the subscriptions with `p`. -/
def notifyWhere (p : Subscription → Bool) (net : Network) (body : List (ℕ × Bytes)) (psvc : Service) : Service :=
  { psvc with
    subscriptions := psvc.subscriptions.map fun sr => if p sr then (genaNotify net body sr).1 else sr
    connections :=
      ((psvc.subscriptions.filter p).filterMap fun sr => (genaNotify net body sr).2).reverse ++ psvc.connections }

/-- `svc_send_initial_events(psvc)`. -/
def svcSendInitialEvents (read : ℕ → Bytes) (net : Network) (psvc : Service) : Service :=
  if psvc.subscriptions.any (·.eventKey = 0) then
    let body := (buildNotifyBody psvc.vars read false).1
    if body ≠ [] then notifyWhere (·.eventKey = 0) net body psvc else psvc
  else psvc

/-- `update_all_subscriptions(psvc)`. -/
def updateAllSubscriptions (read : ℕ → Bytes) (net : Network) (psvc : Service) : Service :=
  let psvc := { psvc with changed := false }
  if psvc.subscriptions ≠ [] then
    let built := buildNotifyBody psvc.vars read true
    notifyWhere (fun _ => true) net built.1 { psvc with vars := built.2 }
  else psvc

/-- `mark_changed(psvc, varindex)`. -/
def markChanged (varindex : ℕ) (psvc : Service) : Service :=
  { psvc with vars := psvc.vars.modify varindex fun v => { v with changed := true }, changed := true }

/-- `remove_net_connection(fd)`. -/
def removeNetConnection (fd : ℕ) (psvc : Service) : Service :=
  { psvc with connections := psvc.connections.eraseP (·.fd = fd) }

/-- `gena_connection_handler`, for a connection that has received `buf`. -/
def genaConnectionHandler (gc : GenaConnection) (buf : Bytes) (psvc : Service) : Service :=
  let line := (strsep (bytes "\r\n") (cstr buf).bytes).1
  let psvc := if imatchPrefix line "HTTP/1.1 200 OK" then psvc else deleteSubscription gc.sub psvc
  removeNetConnection gc.fd psvc

/-- `process_receive_fds`, for a connection of the service. -/
def processReceive (fd : ℕ) (buf : Bytes) (psvc : Service) : Service :=
  match psvc.connections.find? (·.fd = fd) with
  | none => psvc
  | some gc => genaConnectionHandler gc buf psvc

/-! ### Events -/

/-- What can happen. -/
inductive Event where
  | subscribe (svc : ℕ) (addr : Option ℕ) (lanHwaddr : Fin 12 → UInt8) (rest : Fin 3 → UInt8) (cb : Bool)
      (sid timeout : Option Bytes) (now : ℤ)
  | renew (svc : ℕ) (cb : Bool) (sid timeout : Option Bytes) (now : ℤ)
  | unsubscribe (svc : ℕ) (sid : Option Bytes) (badheaders : Bool) (now : ℤ)
  | reap (now : ℤ)
  | markChanged (svc varindex : ℕ)
  | sendInitialEvents (read : ℕ → ℕ → Bytes) (net : Network)
  | updateAll (svc : ℕ) (read : ℕ → Bytes) (net : Network)
  | reply (svc fd : ℕ) (buf : Bytes)
  | connectionReaper (svc fd : ℕ)

/-- What an event leaves. -/
def Event.run (g : Gena) : Event → Gena
  | subscribe svc addr lanHwaddr rest cb sid timeout now =>
    genaNewSubscription svc addr lanHwaddr rest cb sid timeout now g
  | renew svc cb sid timeout now => g.modify svc (genaRenewSubscription cb sid timeout now)
  | unsubscribe svc sid badheaders now => g.modify svc (processUnsubscribe sid badheaders now)
  | reap now => { g with services := fun svc => reapServiceSubscriptions now (g.services svc) }
  | .markChanged svc varindex => g.modify svc (Upnp.markChanged varindex)
  | sendInitialEvents read net => { g with services := fun svc => svcSendInitialEvents (read svc) net (g.services svc) }
  | updateAll svc read net => g.modify svc (updateAllSubscriptions read net)
  | reply svc fd buf => g.modify svc (processReceive fd buf)
  | connectionReaper svc fd => g.modify svc (removeNetConnection fd)

end Upnp
end Router
