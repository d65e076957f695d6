/-
# The leases of the DHCP server

`udhcpd/leases.c` keeps the leases in a table of `max_leases` records. A record whose address is 0 is free, and one
whose `expires` lies behind the clock has run out and may be taken for another client; `expires` 0xffffffff marks an
address that the configuration ties to a client. `udhcpd/dhcpd.c` answers a packet by what the table says of its
sender, and `udhcpd/files.c` carries the table over a restart.

A packet is handled at one time of the clock. What `main` reads of it is a `Request`; how an option is found is in
Udhcpd/Options. Addresses are in network order, as they stand in memory.
-/
import RouterFirmware.Igd.IpConfig
import RouterFirmware.Lib.Run
import RouterFirmware.Udhcpd.Options

namespace Router
namespace Udhcpd

open CMem
open Igd.IpConfig (Endian ntohl)

abbrev Word := BitVec 32

/-- `u_int8_t chaddr[16]`. -/
abbrev Chaddr := Vector UInt8 16

/-- `blank_chaddr`. -/
def blankChaddr : Chaddr := Vector.replicate 16 0

/-- What the lookups by hardware address compare. -/
def Chaddr.mac (c : Chaddr) : List UInt8 := c.toList.take 6

/-- `struct dhcpOfferedAddr`. -/
structure DhcpOfferedAddr where
  chaddr : Chaddr
  yiaddr : Word
  expires : Word
  hostname : List UInt8
deriving DecidableEq

/-- A record after `memset`. -/
def zeroed : DhcpOfferedAddr := ⟨blankChaddr, 0, 0, List.replicate 64 0⟩

/-- `expires` of a static lease. -/
def forever : Word := 0xffffffff

/-- `leases`, with its `max_leases` records. -/
abbrev Table (n : ℕ) := Fin n → DhcpOfferedAddr

/-- The fields of `server_config` that the leases depend on. The loop of `find_address` does not end by itself if the
last address is 255.255.255.255, which is left out. -/
structure ServerConfig where
  endian : Endian
  server : Word
  start : Word
  last : Word
  lease : Word
  remaining : Bool
  declineTime : Word
  conflictTime : Word
  offerTime : Word
  minLease : Word
  last_lt : ntohl endian last ≠ 0xffffffff

/-- What a packet says. -/
structure Request where
  state : Option UInt8
  chaddr : Chaddr
  ciaddr : Word
  requested : Option Word
  serverId : Option Word
  leaseTime : Option Word
  hostname : Option (List UInt8)

/-- The word at an offset of a packet, as `memcpy` leaves it in an `u_int32_t`. -/
def wordAt (packet : Mem) (p : ℕ) : Endian → Word
  | .big => (packet p).toBitVec ++ (packet (p + 1)).toBitVec ++ (packet (p + 2)).toBitVec ++ (packet (p + 3)).toBitVec
  | .little => (packet (p + 3)).toBitVec ++ (packet (p + 2)).toBitVec ++ (packet (p + 1)).toBitVec ++ (packet p).toBitVec

/-- What `main` reads of a packet: the message type, and the options for the requested address, the server, the lease
time and the host name. -/
def Request.ofPacket (e : Endian) (packet : Mem) : Request where
  state := (getOption packet 0x35).map packet
  chaddr := Vector.ofFn fun i => packet (28 + i)
  ciaddr := wordAt packet 12 e
  requested := (getOption packet 0x32).map fun p => wordAt packet p e
  serverId := (getOption packet 0x36).map fun p => wordAt packet p e
  leaseTime := (getOption packet 0x33).map fun p => wordAt packet p e
  hostname := (getOption packet 0x0c).map fun p => (List.range (packet (p - 1)).toNat).map fun k => packet (p + k)

/-- What the server does not decide: the clock, who answers an ARP request (in the first search of `sendOffer` and in
its second), whether an address is `lan_ipaddr_t`, and whether an answer can be sent. -/
structure Env where
  now : Word
  arp : Bool → Word → Bool
  lan : Word → Bool
  sent : Bool

/-- What the server sends. -/
inductive Reply where
  | offer (chaddr : Chaddr) (yiaddr leaseTime : Word)
  | ack (chaddr : Chaddr) (yiaddr leaseTime : Word)
  | nak (chaddr : Chaddr)
  | inform (chaddr : Chaddr)
deriving DecidableEq

variable {n : ℕ}

/-! ### `leases.c` -/

/-- The condition in the loop of `clear_lease`. -/
def clears (chaddr : Chaddr) (yiaddr : Word) (l : DhcpOfferedAddr) : Bool :=
  chaddr ≠ blankChaddr && l.chaddr = chaddr || yiaddr ≠ 0 && l.yiaddr = yiaddr

/-- What `clear_lease` leaves of a record. -/
def cleared (chaddr : Chaddr) (yiaddr : Word) (l : DhcpOfferedAddr) : DhcpOfferedAddr :=
  if clears chaddr yiaddr l ∧ l.expires ≠ forever then zeroed else l

/-- `clear_lease(chaddr, yiaddr)`: `static_lease`, and the table. -/
def clearLease (chaddr : Chaddr) (yiaddr : Word) (leases : Table n) : Option (Fin n) × Table n :=
  ((List.finRange n).reverse.find? fun i => clears chaddr yiaddr (leases i) && (leases i).expires = forever,
    fun i => cleared chaddr yiaddr (leases i))

/-- `lease_expired(lease)`. -/
def leaseExpired (now : Word) (l : DhcpOfferedAddr) : Bool := l.expires < now

/-- `oldest_expired_lease()`. -/
def oldestExpiredLease (now : Word) (leases : Table n) : Option (Fin n) :=
  ((List.finRange n).foldl
    (fun (t : Word × Option (Fin n)) i => if t.1 > (leases i).expires then ((leases i).expires, some i) else t)
    (now, none)).2

/-- `add_lease(chaddr, yiaddr, lease)`. -/
def addLease (now : Word) (chaddr : Chaddr) (yiaddr lease : Word) (leases : Table n) : Option (Fin n) × Table n :=
  match clearLease chaddr yiaddr leases with
  | (some i, leases) => (some i, leases)
  | (none, leases) =>
    match oldestExpiredLease now leases with
    | none => (none, leases)
    | some i =>
      (some i, Function.update leases i
        { leases i with chaddr, yiaddr, expires := if lease = forever then forever else now + lease })

/-- `find_lease_by_chaddr(chaddr)`. -/
def findLeaseByChaddr (chaddr : Chaddr) (leases : Table n) : Option (Fin n) :=
  (List.finRange n).find? fun i => (leases i).chaddr.mac = chaddr.mac

/-- `find_lease_by_yiaddr(yiaddr)`. -/
def findLeaseByYiaddr (yiaddr : Word) (leases : Table n) : Option (Fin n) :=
  (List.finRange n).find? fun i => (leases i).yiaddr = yiaddr

/-- `check_ip(addr)`. -/
def checkIp (cfg : ServerConfig) (now : Word) (arp : Word → Bool) (addr : Word) (leases : Table n) : Bool × Table n :=
  if arp addr then (true, (addLease now blankChaddr addr cfg.conflictTime leases).2) else (false, leases)

/-- The lease of an address is not taken. -/
def available (now : Word) (expired : Bool) (addr : Word) (leases : Table n) : Bool :=
  match findLeaseByYiaddr addr leases with
  | none => true
  | some i => expired && leaseExpired now (leases i)

/-- The loop of `find_address`. -/
def addressLoop (cfg : ServerConfig) (env : Env) (checkExpired : Bool) : List ℕ → Table n → Word × Table n
  | [], leases => (0, leases)
  | a :: rest, leases =>
    let addr := BitVec.ofNat 32 a
    if addr &&& 0xff = 0 ∨ addr &&& 0xff = 0xff then addressLoop cfg env checkExpired rest leases
    else
      let ret := ntohl cfg.endian addr
      if available env.now checkExpired ret leases then
        let (taken, leases) := checkIp cfg env.now (env.arp checkExpired) ret leases
        if taken ∨ env.lan ret then addressLoop cfg env checkExpired rest leases else (ret, leases)
      else addressLoop cfg env checkExpired rest leases

/-- `find_address(check_expired)`. -/
def findAddress (cfg : ServerConfig) (env : Env) (checkExpired : Bool) (leases : Table n) : Word × Table n :=
  let first := (ntohl cfg.endian cfg.start).toNat
  addressLoop cfg env checkExpired (List.range' first ((ntohl cfg.endian cfg.last).toNat + 1 - first)) leases

/-! ### `serverpacket.c` -/

/-- The address is one the server hands out. -/
def inRange (cfg : ServerConfig) (addr : Word) : Bool :=
  ntohl cfg.endian addr ≥ ntohl cfg.endian cfg.start && ntohl cfg.endian addr ≤ ntohl cfg.endian cfg.last

/-- The address `sendOffer` settles on, the lease time it starts from, and the table. -/
def chooseAddress (cfg : ServerConfig) (env : Env) (r : Request) (leases : Table n) : Word × Word × Table n :=
  let search : Word × Word × Table n :=
    let (addr, leases) := findAddress cfg env false leases
    if addr = 0 then
      let (addr, leases) := findAddress cfg env true leases
      (addr, cfg.lease, leases)
    else (addr, cfg.lease, leases)
  match findLeaseByChaddr r.chaddr leases with
  | some i =>
    ((leases i).yiaddr, if leaseExpired env.now (leases i) then cfg.lease else (leases i).expires - env.now, leases)
  | none =>
    match r.requested with
    | some req => if inRange cfg req && available env.now true req leases then (req, cfg.lease, leases) else search
    | none => search

/-- `sendOffer(oldpacket)`. -/
def sendOffer (cfg : ServerConfig) (env : Env) (r : Request) (leases : Table n) : Option Reply × Table n :=
  let (yiaddr, align, leases) := chooseAddress cfg env r leases
  if yiaddr = 0 then (none, leases)
  else
    match addLease env.now r.chaddr yiaddr cfg.offerTime leases with
    | (none, leases) => (none, leases)
    | (some _, leases) =>
      let align := (r.leaseTime.map fun t => if ntohl cfg.endian t > cfg.lease then cfg.lease else ntohl cfg.endian t).getD align
      (some (.offer r.chaddr yiaddr (if align < cfg.minLease then cfg.lease else align)), leases)

/-- The lease time of `sendACK`. -/
def ackTime (cfg : ServerConfig) (r : Request) : Word :=
  match r.leaseTime with
  | none => cfg.lease
  | some t =>
    let align := ntohl cfg.endian t
    if align > cfg.lease then cfg.lease else if align < cfg.minLease then cfg.lease else align

/-- `sendACK(oldpacket, yiaddr)`. -/
def sendAck (cfg : ServerConfig) (env : Env) (r : Request) (yiaddr : Word) (leases : Table n) : Option Reply × Table n :=
  (some (.ack r.chaddr yiaddr (ackTime cfg r)),
    if env.sent then (addLease env.now r.chaddr yiaddr (ackTime cfg r) leases).2 else leases)

/-! ### `dhcpd.c` -/

/-- The host name a request leaves in `lease->hostname`. -/
def writeHostname (old : List UInt8) : Option (List UInt8) → List UInt8
  | none => old.set 0 0
  | some name =>
    let bytes := min name.length 63
    let text := (name.take bytes).takeWhile (· ≠ 0)
    text ++ List.replicate (bytes + 1 - text.length) 0 ++ old.drop (bytes + 1)

/-- A `DHCPREQUEST` of a client with a lease. -/
def requestKnown (cfg : ServerConfig) (env : Env) (r : Request) (i : Fin n) (leases : Table n) : Option Reply × Table n :=
  match r.serverId, r.requested with
  | some id, some req =>
    if id = cfg.server ∧ req = (leases i).yiaddr then sendAck cfg env r (leases i).yiaddr leases else (none, leases)
  | some _, none => (none, leases)
  | none, some req =>
    if (leases i).yiaddr = req then sendAck cfg env r (leases i).yiaddr leases else (some (.nak r.chaddr), leases)
  | none, none =>
    if (leases i).yiaddr = r.ciaddr then sendAck cfg env r (leases i).yiaddr leases else (some (.nak r.chaddr), leases)

/-- A `DHCPREQUEST` of a client without a lease. -/
def requestUnknown (env : Env) (r : Request) (leases : Table n) : Option Reply × Table n :=
  match r.serverId, r.requested with
  | some _, _ => (none, leases)
  | none, some req =>
    match findLeaseByYiaddr req leases with
    | some j =>
      if leaseExpired env.now (leases j) then (none, Function.update leases j { leases j with chaddr := blankChaddr })
      else (some (.nak r.chaddr), leases)
    | none => (some (.nak r.chaddr), leases)
  | none, none => (if r.ciaddr ≠ 0 then some (.nak r.chaddr) else none, leases)

/-- What `main` does with a packet. -/
def handle (cfg : ServerConfig) (env : Env) (r : Request) (leases : Table n) : Option Reply × Table n :=
  match r.state, findLeaseByChaddr r.chaddr leases with
  | none, _ => (none, leases)
  | some 1, _ => sendOffer cfg env r leases
  | some 3, some i =>
    -- the name goes into the record the lease was found in, where the lease itself need not be any more
    let (reply, leases) := requestKnown cfg env r i leases
    (reply, Function.update leases i { leases i with hostname := writeHostname (leases i).hostname r.hostname })
  | some 3, none => requestUnknown env r leases
  | some 4, some i =>
    (none, Function.update leases i { leases i with chaddr := blankChaddr, expires := env.now + cfg.declineTime })
  | some 7, some i => (none, Function.update leases i { leases i with expires := env.now })
  | some 8, _ => (some (.inform r.chaddr), leases)
  | some _, _ => (none, leases)

/-! ### `files.c` -/

/-- Adds the leases of a file, until the table is full or `k` of them are in. -/
def addAll (now : Word) : ℕ → List (Chaddr × Word × Word) → Table n → Table n
  | 0, _, leases => leases
  | _ + 1, [], leases => leases
  | k + 1, (chaddr, yiaddr, lease) :: rest, leases =>
    match addLease now chaddr yiaddr lease leases with
    | (none, leases) => leases
    | (some _, leases) => addAll now k rest leases

/-- `load_leases(file)`: the static leases. -/
def loadLeases (now : Word) (file : List (Chaddr × Word)) (leases : Table n) : Table n :=
  addAll now n (file.map fun l => (l.1, l.2, forever)) leases

/-- `read_leases(file)`, which compares the addresses as they stand in memory. -/
def readLeases (cfg : ServerConfig) (now : Word) (file : List DhcpOfferedAddr) (leases : Table n) : Table n :=
  addAll now n ((file.filter fun l => l.yiaddr ≥ cfg.start && l.yiaddr ≤ cfg.last).map fun l =>
    (l.chaddr, l.yiaddr, if cfg.remaining then ntohl cfg.endian l.expires else ntohl cfg.endian l.expires - now)) leases

/-- The lease time that `write_leases` writes. -/
def writtenTime (cfg : ServerConfig) (now : Word) (l : DhcpOfferedAddr) : Word :=
  if cfg.remaining then
    if leaseExpired now l then 0 else if l.expires ≠ forever then l.expires - now else l.expires
  else l.expires

/-- `write_leases()`. -/
def writeLeases (cfg : ServerConfig) (now : Word) (leases : Table n) : List DhcpOfferedAddr :=
  ((List.finRange n).filter fun i => (leases i).yiaddr ≠ 0).map fun i =>
    { leases i with expires := ntohl cfg.endian (writtenTime cfg now (leases i)) }

/-- The table when the server starts. -/
def start (cfg : ServerConfig) (now : Word) (statics : List (Chaddr × Word)) (file : List DhcpOfferedAddr) : Table n :=
  readLeases cfg now file (loadLeases now statics fun _ => zeroed)

end Udhcpd
end Router
