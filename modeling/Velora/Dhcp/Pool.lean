import Velora.Lib.Ip
import Velora.Lib.Prog

/-!
# DHCP leases

The allocator of an IPv4 pool with its maps of reservations, leases and addresses, the rows of the lease table, and the
server that answers one message after the other. The server keeps, beside what the source has, the history of the leases
it has acknowledged and not released.

Instants and the times of leases are in nanoseconds from the beginning of the year 1, which is the zero time.
-/

namespace Velora.Dhcp

open Velora.Lib Velora.Lib.Text Velora.Lib.Ip

/-! ### Addresses and prefixes -/

/-- An IPv4 `netip.Prefix`. -/
structure Prefix where
  addr : List UInt8
  bits : ℕ
  four : addr.length = 4
  le : bits ≤ 32

/-- The number the bytes of an address make up. -/
def value (ip : List UInt8) : ℕ := ip.foldl (fun n b => n * 256 + b.toNat) 0

/-- `Prefix.Contains`: no address of sixteen bytes is in an IPv4 prefix. -/
def Prefix.contains (p : Prefix) (ip : List UInt8) : Bool :=
  ip.length == 4 && value ip / 2 ^ (32 - p.bits) == value p.addr / 2 ^ (32 - p.bits)

/-- `networkAddr`. Without a remainder the byte the prefix ends at stays as it is. -/
def networkAddr (p : Prefix) : List UInt8 :=
  p.addr.mapIdx (fun i b =>
    if i = p.bits / 8 ∧ p.bits % 8 ≠ 0 then b &&& (0xFF <<< UInt8.ofNat (8 - p.bits % 8))
    else if p.bits / 8 < i then 0
    else b)

def broadcastAddr (p : Prefix) : List UInt8 :=
  p.addr.mapIdx (fun i b =>
    if i = p.bits / 8 ∧ p.bits % 8 ≠ 0 then b ||| (0xFF >>> UInt8.ofNat (p.bits % 8))
    else if p.bits / 8 ≤ i then 0xFF
    else b)

def nextIP : List UInt8 → List UInt8
  | [a, b, c, d] =>
    if [a, b, c, d] = [0, 0, 0, 0] then [a, b, c, d]
    else if d + 1 ≠ 0 then [a, b, c, d + 1]
    else if c + 1 ≠ 0 then [a, b, c + 1, 0]
    else if b + 1 ≠ 0 then [a, b + 1, 0, 0]
    else [a + 1, 0, 0, 0]
  | ip => ip

def isNetworkOrBroadcast (ip : List UInt8) (subnet : Prefix) : Bool :=
  ip == networkAddr subnet || ip == broadcastAddr subnet

def poolRange (subnet : Prefix) : List UInt8 × List UInt8 := (nextIP (networkAddr subnet), broadcastAddr subnet)

example : poolRange ⟨[192, 168, 1, 0], 24, rfl, by decide⟩ = ([192, 168, 1, 1], [192, 168, 1, 255]) ∧
    networkAddr ⟨[192, 168, 1, 77], 24, rfl, by decide⟩ = [192, 168, 1, 77] ∧
    networkAddr ⟨[192, 168, 1, 77], 27, rfl, by decide⟩ = [192, 168, 1, 64] := by
  decide

theorem length_nextIP : ∀ ip : List UInt8, (nextIP ip).length = ip.length
  | [a, b, c, d] => by
    rw [nextIP]
    repeat' split
    all_goals rfl
  | [] | [_] | [_, _] | [_, _, _] | _ :: _ :: _ :: _ :: _ :: _ => rfl

theorem length_networkAddr (p : Prefix) : (networkAddr p).length = 4 := by rw [networkAddr, List.length_mapIdx, p.four]

/-- `net.IP.Equal`. -/
def equalIP (a b : List UInt8) : Bool := (to4 a).getD a == (to4 b).getD b

/-- `netToNetip`: nothing for the invalid address. -/
def netToNetip (ip : List UInt8) : Option (List UInt8) :=
  match to4 ip with
  | some v4 => some v4
  | none => if ip.length = 16 then some ip else none

/-! ### The allocator -/

structure Pool where
  subnet : Prefix
  gateway : List UInt8
  leaseSeconds : ℤ
  four : gateway.length = 4

/-- The lease time in seconds as the server sends it, `uint32(LeaseSeconds)`. -/
def Pool.leaseSec (p : Pool) : ℕ := (p.leaseSeconds % 2 ^ 32).toNat

structure Reservation where
  macAddress : Str
  ipAddress : Str

inductive LeaseStatus where
  | active
  | expired
  | released
  deriving DecidableEq

structure Lease where
  macAddress : Str
  ipAddress : Str
  expiresAt : ℕ := 0
  status : LeaseStatus
  deriving DecidableEq

def Lease.isExpired (l : Lease) (now : ℕ) : Bool := l.expiresAt < now

structure PoolAllocator where
  pool : Pool
  /-- the reserved address of a MAC address -/
  reservations : AList (fun _ : Str => List UInt8) := ∅
  /-- the lease of a MAC address -/
  leases : AList (fun _ : Str => Lease) := ∅
  /-- the MAC address an address is leased to -/
  ips : AList (fun _ : List UInt8 => Str) := ∅

namespace PoolAllocator

def addReservation (pa : PoolAllocator) (r : Reservation) : PoolAllocator :=
  match parseAddr r.ipAddress with
  | some ip => { pa with reservations := pa.reservations.insert r.macAddress ip }
  | none => pa

def addLease (now : ℕ) (pa : PoolAllocator) (l : Lease) : PoolAllocator :=
  if l.status = .active ∧ l.isExpired now = false then
    match parseAddr l.ipAddress with
    | some ip => { pa with leases := pa.leases.insert l.macAddress l, ips := pa.ips.insert ip l.macAddress }
    | none => pa
  else pa

end PoolAllocator

/-- `NewPoolAllocator`. -/
def newPoolAllocator (pool : Pool) (reservations : List Reservation) (leases : List Lease) (now : ℕ) : PoolAllocator :=
  leases.foldl (PoolAllocator.addLease now) (reservations.foldl PoolAllocator.addReservation { pool })

namespace PoolAllocator

/-- The address is not leased to another client. -/
def unowned (pa : PoolAllocator) (ip : List UInt8) (mac : Str) : Bool :=
  match pa.ips.lookup ip with
  | some owner => owner == mac
  | none => true

/-- `usable`: not leased to, or reserved for, another client. -/
def usable (pa : PoolAllocator) (ip : List UInt8) (mac : Str) : Bool :=
  pa.unowned ip mac && pa.reservations.entries.all (fun r => !(r.2 == ip && r.1 != mac))

/-- The loop of `allocateFromRange`: the address it stops at, or no address when it comes to the end of the range. There
are no more than 2^32 addresses, so without fuel the loop goes round for ever. -/
def search (pa : PoolAllocator) (mac : Str) (stop : List UInt8) : ℕ → List UInt8 → Option (Option (List UInt8))
  | 0, _ => none
  | fuel + 1, ip =>
    if ip = stop then some none
    else if isNetworkOrBroadcast ip pa.pool.subnet || !pa.usable ip mac || ip == pa.pool.gateway then
      pa.search mac stop fuel (nextIP ip)
    else some (some ip)

/-- `allocateFromRange`, or nothing when it does not return. -/
def allocateFromRange (pa : PoolAllocator) (mac : Str) : Option (Option (List UInt8) × PoolAllocator) :=
  match (pa.leases.lookup mac).bind (fun l => parseAddr l.ipAddress) with
  | some ip => some (some ip, pa)
  | none =>
    let (start, stop) := poolRange pa.pool.subnet
    (pa.search mac stop (2 ^ 32 + 1) start).map (fun found =>
      match found with
      | none => (none, pa)
      | some ip =>
        (some ip,
          { pa with
            ips := pa.ips.insert ip mac
            leases := pa.leases.insert mac { macAddress := mac, ipAddress := addrString ip, status := .active } }))

/-- What a client may have when it asks for it: a usable address of the subnet. -/
def requestable (pa : PoolAllocator) (ip : List UInt8) (mac : Str) : Bool :=
  pa.usable ip mac && pa.pool.subnet.contains ip && !isNetworkOrBroadcast ip pa.pool.subnet

/-- `AllocateForDiscover`. -/
def allocateForDiscover (pa : PoolAllocator) (mac : Str) (requestedIP : Option (List UInt8)) :
    Option (Option (List UInt8) × PoolAllocator) :=
  match (pa.reservations.lookup mac).filter (fun reserved => pa.unowned reserved mac) with
  | some reserved => some (some reserved, pa)
  | none =>
    match requestedIP.filter (fun ip => pa.requestable ip mac) with
    | some ip => some (some ip, pa)
    | none => pa.allocateFromRange mac

/-- `AllocateForRequest`. -/
def allocateForRequest (pa : PoolAllocator) (mac : Str) (requestedIP : Option (List UInt8)) :
    Option (Option (List UInt8) × PoolAllocator) :=
  match pa.reservations.lookup mac with
  | some reserved =>
    if (requestedIP = none ∨ requestedIP = some reserved) ∧ pa.unowned reserved mac then
      some (some reserved, pa)
    else some (none, pa)
  | none =>
    match requestedIP with
    | some ip => if pa.requestable ip mac then some (some ip, pa) else some (none, pa)
    | none => pa.allocateFromRange mac

/-- A lease is taken out of both maps. -/
def drop (pa : PoolAllocator) (mac : Str) (l : Lease) : PoolAllocator :=
  { pa with
    ips :=
      match parseAddr l.ipAddress with
      | some ip => pa.ips.erase ip
      | none => pa.ips
    leases := pa.leases.erase mac }

/-- `Release`. -/
def release (pa : PoolAllocator) (mac : Str) : PoolAllocator :=
  match pa.leases.lookup mac with
  | none => pa
  | some l => pa.drop mac l

/-- `ExpireLeases`. -/
def expireLeases (pa : PoolAllocator) (now : ℕ) : PoolAllocator :=
  pa.leases.entries.foldl (fun pa e => if e.2.isExpired now then pa.drop e.1 e.2 else pa) pa

end PoolAllocator

/-! ### The server -/

def second : ℕ := 10 ^ 9

/-- What the server reads of a packet. -/
structure Packet where
  opCode : UInt8 := 1
  ciAddr : List UInt8 := [0, 0, 0, 0]
  giAddr : List UInt8 := [0, 0, 0, 0]
  chAddr : List UInt8
  options : List (UInt8 × List UInt8)

namespace Packet

def getOption (p : Packet) (code : UInt8) : List UInt8 := (p.options.lookup code).getD []

def messageType (p : Packet) : UInt8 := (p.getOption 53).head?.getD 0

/-- An option that is an address. -/
def addressOption (p : Packet) (code : UInt8) : Option (List UInt8) :=
  if (p.getOption code).length < 4 then none else some ((p.getOption code).take 4)

def requestedIP (p : Packet) : Option (List UInt8) := p.addressOption 50

def serverID (p : Packet) : Option (List UInt8) := p.addressOption 54

/-- `CHAddr.String()`. -/
def mac (p : Packet) : Str :=
  List.intercalate [':'] (p.chAddr.map (fun b => [Nat.digitChar (b.toNat / 16), Nat.digitChar (b.toNat % 16)]))

end Packet

/-- How a statement of the store ends: with an error it has not run, or it has run and the answer is lost. -/
inductive Saved where
  | done
  | failed
  | lost
  deriving DecidableEq

/-- The choices of the outside while a message is handled: the row `GetLease` finds among the ones of the client, or an
error, and how `SaveLease` ends. -/
structure Outside where
  row : Option ℕ := some 0
  save : Saved := .done

/-- A lease that has been acknowledged. -/
structure Acked where
  mac : Str
  ip : List UInt8
  expiresAt : ℕ

structure Server where
  allocator : PoolAllocator
  serverIP : List UInt8
  /-- the rows of the pool in `dhcp_leases` -/
  rows : List Lease
  now : ℕ
  /-- history: the leases that are acknowledged and not released -/
  acked : List Acked

/-- `SaveLease`: at most one row for each address; the time is stored in whole seconds. -/
def saveLease (l : Lease) (rows : List Lease) : List Lease :=
  let row := { l with expiresAt := l.expiresAt / second * second }
  if rows.any (fun r => r.ipAddress == l.ipAddress) then
    rows.map (fun r => if r.ipAddress == l.ipAddress then row else r)
  else rows ++ [row]

namespace Server

/-- `GetLease`: one of the rows of the client. -/
def getLease (s : Server) (mac : Str) (x : Outside) : Option Lease :=
  x.row.bind (fun i => (s.rows.filter (fun r => r.macAddress == mac))[i]?)

/-- `handleDiscover`; the conversion of an address of sixteen bytes for the reply panics. -/
def handleDiscover (s : Server) (pkt : Packet) : Option Server :=
  match s.allocator.allocateForDiscover pkt.mac (pkt.requestedIP.bind netToNetip) with
  | none => none
  | some (none, pa) => some { s with allocator := pa }
  | some (some ip, pa) => if (to4 ip).isSome then some { s with allocator := pa } else none

/-- The address a REQUEST is for; a client that renews has it in `ciaddr`. -/
def requested (pkt : Packet) : Option (List UInt8) :=
  match pkt.requestedIP.bind netToNetip with
  | some ip => some ip
  | none => if equalIP pkt.ciAddr [0, 0, 0, 0] then none else netToNetip pkt.ciAddr

/-- The packet names another server. -/
def foreign (s : Server) (pkt : Packet) : Bool := pkt.serverID.any (fun id => !equalIP id s.serverIP)

/-- `handleRequest`. The lease is saved before it is acknowledged. -/
def handleRequest (s : Server) (pkt : Packet) (x : Outside) : Option Server :=
  if s.foreign pkt then some s
  else
    match s.allocator.allocateForRequest pkt.mac (requested pkt) with
    | none => none
    | some (none, pa) => some { s with allocator := pa }
    | some (some ip, pa) =>
      let expiresAt := s.now + pa.pool.leaseSec * second
      let rows := saveLease ⟨pkt.mac, addrString ip, expiresAt, .active⟩ s.rows
      match x.save with
      | .failed => some { s with allocator := pa }
      | .lost => some { s with allocator := pa, rows }
      | .done =>
        if (to4 ip).isSome then
          some { s with allocator := pa, rows, acked := ⟨pkt.mac, ip, expiresAt⟩ :: s.acked }
        else none

/-- `releaseLease`. -/
def releaseLease (s : Server) (mac : Str) (ip : List UInt8) (x : Outside) : Server :=
  match s.getLease mac x with
  | none => s
  | some l =>
    if l.status ≠ .active ∨ l.ipAddress ≠ ipString ip then s
    else
      let rows := saveLease { l with status := .released } s.rows
      match x.save with
      | .failed => s
      | .lost => { s with rows }
      | .done =>
        { s with
          rows
          allocator := s.allocator.release mac
          acked := s.acked.filter (fun e => !(e.mac == mac && e.ip == ip)) }

def handleRelease (s : Server) (pkt : Packet) (x : Outside) : Server :=
  if s.foreign pkt then s else s.releaseLease pkt.mac pkt.ciAddr x

def handleDecline (s : Server) (pkt : Packet) (x : Outside) : Server :=
  match pkt.requestedIP with
  | none => s
  | some ip => s.releaseLease pkt.mac ip x

/-- `handle`, or nothing when it does not return. -/
def handle (s : Server) (pkt : Packet) (x : Outside) : Option Server :=
  if pkt.opCode ≠ 1 then some s
  else if !equalIP pkt.giAddr [0, 0, 0, 0] then some s
  else
    match pkt.messageType with
    | 1 => s.handleDiscover pkt
    | 3 => s.handleRequest pkt x
    | 7 => some (s.handleRelease pkt x)
    | 4 => some (s.handleDecline pkt x)
    | _ => some s

/-- `ExpireLeases` of the store. -/
def expireRows (now : ℕ) (rows : List Lease) : List Lease :=
  rows.map (fun r => if r.status = .active ∧ r.expiresAt < now / second * second then { r with status := .expired } else r)

end Server

inductive Event where
  | message (now : ℕ) (pkt : Packet) (x : Outside)
  | expireLeases (now : ℕ)
  | expireRows (now : ℕ)

def Event.now : Event → ℕ
  | .message now _ _ | .expireLeases now | .expireRows now => now

/-- One step. The clock does not go back. -/
def Server.step (s : Server) (e : Event) : Option Server :=
  if e.now < s.now then none
  else
    let s := { s with now := e.now }
    match e with
    | .message _ pkt x => s.handle pkt x
    | .expireLeases now => some { s with allocator := s.allocator.expireLeases now }
    | .expireRows now => some { s with rows := Server.expireRows now s.rows }

/-- The server on a stored pool. The leases that are active and not expired have been acknowledged. -/
def start (pool : Pool) (serverIP : List UInt8) (reservations : List Reservation) (leases : List Lease) (now : ℕ) :
    Server where
  allocator := newPoolAllocator pool reservations leases now
  serverIP
  rows := leases
  now
  acked := leases.filterMap (fun l =>
    if l.status = .active ∧ l.isExpired now = false then
      (parseAddr l.ipAddress).map (fun ip => ⟨l.macAddress, ip, l.expiresAt⟩)
    else none)

/-- The client holds an acknowledged lease on the address that is not expired and not released. -/
def Server.holds (s : Server) (mac : Str) (ip : List UInt8) : Bool :=
  s.acked.any (fun e => e.mac == mac && e.ip == ip && s.now ≤ e.expiresAt)

/-- No two clients hold the same address. -/
def Server.Exclusive (s : Server) : Prop := ∀ m m' ip, s.holds m ip = true → s.holds m' ip = true → m = m'

end Velora.Dhcp
