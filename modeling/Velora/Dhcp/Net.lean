import Velora.Dhcp.Range

/-!
# Pools of either family

`ValidatePool` accepts a subnet of either family, and the allocator works with the four bytes of its address. This module
has the allocator for any subnet; a function that panics gives nothing. For an IPv4 subnet it is the allocator of the server
(`allocateForDiscover_net`, `allocateForRequest_net`).
-/

namespace Velora.Dhcp

open Velora.Lib Velora.Lib.Text Velora.Lib.Ip

/-! ### Subnets -/

/-- A `netip.Prefix`; the zero value, which is not valid, has no address. -/
structure Net where
  addr : List UInt8
  bits : ℕ
  wf : addr = [] ∨ addr.length = 4 ∧ bits ≤ 32 ∨ addr.length = 16 ∧ bits ≤ 128

namespace Net

def isValid (p : Net) : Bool := p.addr != []

/-- The number of addresses of a prefix, and the first and the last of them. -/
def size (p : Net) : ℕ := 2 ^ (8 * p.addr.length - p.bits)

def first (p : Net) : ℕ := value p.addr / p.size * p.size

def last (p : Net) : ℕ := p.first + (p.size - 1)

/-- `Prefix.Contains`. -/
def contains (p : Net) (ip : List UInt8) : Bool :=
  p.isValid && ip.length == p.addr.length && value ip / p.size == value p.addr / p.size

/-- The byte a prefix ends in is not one of the four. -/
def past (p : Net) : Bool := p.bits % 8 ≠ 0 && 4 ≤ p.bits / 8

/-- `networkAddr`: `As4` panics if there are no four bytes, and so does the access to a byte past them. -/
def networkAddr (p : Net) : Option (List UInt8) :=
  match to4 p.addr with
  | none => none
  | some b =>
    if p.past then none
    else
      some (b.mapIdx (fun i x =>
        if i = p.bits / 8 ∧ p.bits % 8 ≠ 0 then x &&& (0xFF <<< UInt8.ofNat (8 - p.bits % 8))
        else if p.bits / 8 < i then 0
        else x))

def broadcastAddr (p : Net) : Option (List UInt8) :=
  match to4 p.addr with
  | none => none
  | some b =>
    if p.past then none
    else
      some (b.mapIdx (fun i x =>
        if i = p.bits / 8 ∧ p.bits % 8 ≠ 0 then x ||| (0xFF >>> UInt8.ofNat (p.bits % 8))
        else if p.bits / 8 ≤ i then 0xFF
        else x))

def isNetworkOrBroadcast (ip : List UInt8) (subnet : Net) : Option Bool :=
  match subnet.networkAddr, subnet.broadcastAddr with
  | some first, some last => some (ip == first || ip == last)
  | _, _ => none

def poolRange (subnet : Net) : Option (List UInt8 × List UInt8) :=
  match subnet.networkAddr, subnet.broadcastAddr with
  | some first, some last => some (nextIP first, last)
  | _, _ => none

/-- `Prefix.String`. -/
def string (p : Net) : Str := if p.isValid then addrString p.addr ++ '/' :: decimal p.bits else "invalid Prefix".toList

end Net

/-! ### Pools -/

/-- A pool, with what its check and the allocator read. -/
structure NetPool where
  name : Str
  interface : Str
  subnet : Net
  /-- empty for the zero value, which is not valid -/
  gateway : List UInt8
  leaseSeconds : ℤ

/-- `ValidatePool`: the error, or nothing. -/
def validatePool (p : NetPool) : Option Str :=
  if p.name = [] then some "pool name is required".toList
  else if p.interface = [] then some "pool interface is required".toList
  else if p.subnet.isValid = false then some "invalid subnet".toList
  else if p.gateway = [] then some "invalid gateway".toList
  else if p.subnet.contains p.gateway = false then
    some ("gateway ".toList ++ addrString p.gateway ++ " is outside subnet ".toList ++ p.subnet.string)
  else if p.leaseSeconds < 60 ∨ 31536000 < p.leaseSeconds then some "lease_seconds must be between 60 and 31536000".toList
  else none

/-! ### The allocator -/

structure NetAllocator where
  pool : NetPool
  reservations : AList (fun _ : Str => List UInt8) := ∅
  leases : AList (fun _ : Str => Lease) := ∅
  ips : AList (fun _ : List UInt8 => Str) := ∅

namespace NetAllocator

def addReservation (pa : NetAllocator) (r : Reservation) : NetAllocator :=
  match parseAddr r.ipAddress with
  | some ip => { pa with reservations := pa.reservations.insert r.macAddress ip }
  | none => pa

def addLease (now : ℕ) (pa : NetAllocator) (l : Lease) : NetAllocator :=
  if l.status = .active ∧ l.isExpired now = false then
    match parseAddr l.ipAddress with
    | some ip => { pa with leases := pa.leases.insert l.macAddress l, ips := pa.ips.insert ip l.macAddress }
    | none => pa
  else pa

end NetAllocator

/-- `NewPoolAllocator`. -/
def newNetAllocator (pool : NetPool) (reservations : List Reservation) (leases : List Lease) (now : ℕ) : NetAllocator :=
  leases.foldl (NetAllocator.addLease now) (reservations.foldl NetAllocator.addReservation { pool })

namespace NetAllocator

def unowned (pa : NetAllocator) (ip : List UInt8) (mac : Str) : Bool :=
  match pa.ips.lookup ip with
  | some owner => owner == mac
  | none => true

def usable (pa : NetAllocator) (ip : List UInt8) (mac : Str) : Bool :=
  pa.unowned ip mac && pa.reservations.entries.all (fun r => !(r.2 == ip && r.1 != mac))

/-- The loop of `allocateFromRange`. -/
def search (pa : NetAllocator) (mac : Str) (stop : List UInt8) : ℕ → List UInt8 → Option (Option (List UInt8))
  | 0, _ => none
  | fuel + 1, ip =>
    if ip = stop then some none
    else
      match pa.pool.subnet.isNetworkOrBroadcast ip with
      | none => none
      | some edge =>
        if edge || !pa.usable ip mac || ip == pa.pool.gateway then pa.search mac stop fuel (nextIP ip)
        else some (some ip)

def allocateFromRange (pa : NetAllocator) (mac : Str) : Option (Option (List UInt8) × NetAllocator) :=
  match (pa.leases.lookup mac).bind (fun l => parseAddr l.ipAddress) with
  | some ip => some (some ip, pa)
  | none =>
    match pa.pool.subnet.poolRange with
    | none => none
    | some (start, stop) =>
      (pa.search mac stop (2 ^ 32 + 1) start).map (fun found =>
        match found with
        | none => (none, pa)
        | some ip =>
          (some ip,
            { pa with
              ips := pa.ips.insert ip mac
              leases := pa.leases.insert mac { macAddress := mac, ipAddress := addrString ip, status := .active } }))

/-- What a client may have when it asks for it. The ends of the subnet are computed for an address that passes the other
checks. -/
def requestable (pa : NetAllocator) (ip : List UInt8) (mac : Str) : Option Bool :=
  if pa.usable ip mac && pa.pool.subnet.contains ip then (pa.pool.subnet.isNetworkOrBroadcast ip).map (!·) else some false

def allocateForDiscover (pa : NetAllocator) (mac : Str) (requestedIP : Option (List UInt8)) :
    Option (Option (List UInt8) × NetAllocator) :=
  match (pa.reservations.lookup mac).filter (fun reserved => pa.unowned reserved mac) with
  | some reserved => some (some reserved, pa)
  | none =>
    match requestedIP with
    | none => pa.allocateFromRange mac
    | some ip =>
      match pa.requestable ip mac with
      | none => none
      | some true => some (some ip, pa)
      | some false => pa.allocateFromRange mac

def allocateForRequest (pa : NetAllocator) (mac : Str) (requestedIP : Option (List UInt8)) :
    Option (Option (List UInt8) × NetAllocator) :=
  match pa.reservations.lookup mac with
  | some reserved =>
    if (requestedIP = none ∨ requestedIP = some reserved) ∧ pa.unowned reserved mac then
      some (some reserved, pa)
    else some (none, pa)
  | none =>
    match requestedIP with
    | none => pa.allocateFromRange mac
    | some ip =>
      match pa.requestable ip mac with
      | none => none
      | some true => some (some ip, pa)
      | some false => some (none, pa)

def drop (pa : NetAllocator) (mac : Str) (l : Lease) : NetAllocator :=
  { pa with
    ips :=
      match parseAddr l.ipAddress with
      | some ip => pa.ips.erase ip
      | none => pa.ips
    leases := pa.leases.erase mac }

def release (pa : NetAllocator) (mac : Str) : NetAllocator :=
  match pa.leases.lookup mac with
  | none => pa
  | some l => pa.drop mac l

def expireLeases (pa : NetAllocator) (now : ℕ) : NetAllocator :=
  pa.leases.entries.foldl (fun pa e => if e.2.isExpired now then pa.drop e.1 e.2 else pa) pa

end NetAllocator

/-- What is asked of the allocator, with the requested address if it is valid. -/
inductive Ask where
  | discover (mac : Str) (requestedIP : Option (List UInt8))
  | request (mac : Str) (requestedIP : Option (List UInt8))

def NetAllocator.answer (pa : NetAllocator) : Ask → Option (Option (List UInt8) × NetAllocator)
  | .discover mac requestedIP => pa.allocateForDiscover mac requestedIP
  | .request mac requestedIP => pa.allocateForRequest mac requestedIP

inductive Act where
  | ask (a : Ask)
  | release (mac : Str)
  | expireLeases (now : ℕ)

def NetAllocator.step (pa : NetAllocator) : Act → Option NetAllocator
  | .ask a => (pa.answer a).map Prod.snd
  | .release mac => some (pa.release mac)
  | .expireLeases now => some (pa.expireLeases now)

/-! ### Four bytes -/

theorem length_to4 {ip b : List UInt8} (h : to4 ip = some b) : b.length = 4 := by
  rw [to4] at h
  split at h
  · cases h
    assumption
  split at h
  · next h16 =>
    cases h
    rw [List.length_drop, h16.1]
  · cases h

/-- The IPv4 prefix whose ends the functions compute, if they do not panic. -/
def Net.asFour (p : Net) : Option Prefix :=
  if p.past then none
  else (to4 p.addr).bind (fun b => if h : b.length = 4 then some ⟨b, min p.bits 32, h, Nat.min_le_right _ _⟩ else none)

/-- Beyond the four bytes it does not matter where a prefix ends. -/
theorem Net.ends_eq (p : Net) :
    p.networkAddr = p.asFour.map Dhcp.networkAddr ∧ p.broadcastAddr = p.asFour.map Dhcp.broadcastAddr := by
  rw [networkAddr, broadcastAddr, asFour]
  cases h : to4 p.addr with
  | none => simp
  | some b =>
  by_cases hpast : p.past = true
  · simp [hpast]
  have hb := length_to4 h
  simp only [hpast, Bool.false_eq_true, if_false, Option.bind_some, dif_pos hb, Option.map_some, Option.some.injEq,
    Dhcp.networkAddr, Dhcp.broadcastAddr]
  by_cases hle : p.bits ≤ 32
  · simp only [Nat.min_eq_left hle, and_self]
  · have hq : 4 ≤ p.bits / 8 := by omega
    have hr : p.bits % 8 = 0 := by simpa [past, hq] using hpast
    simp only [Nat.min_eq_right (Nat.le_of_not_le hle)]
    constructor <;> refine List.ext_getElem (by simp) fun i hi _ => ?_
    · rw [List.length_mapIdx, hb] at hi
      have hlt : ¬ p.bits / 8 < i := by omega
      have hlt' : ¬ 32 / 8 < i := by omega
      simp [hr, hlt, hlt']
    · rw [List.length_mapIdx, hb] at hi
      have hlt : ¬ p.bits / 8 ≤ i := by omega
      have hlt' : ¬ 32 / 8 ≤ i := by omega
      simp [hr, hlt, hlt']

theorem Net.isNetworkOrBroadcast_eq (p : Net) (ip : List UInt8) :
    p.isNetworkOrBroadcast ip = p.asFour.map (fun q => Dhcp.isNetworkOrBroadcast ip q) := by
  rw [isNetworkOrBroadcast, p.ends_eq.1, p.ends_eq.2]
  cases p.asFour <;> rfl

theorem Net.poolRange_eq (p : Net) : p.poolRange = p.asFour.map Dhcp.poolRange := by
  rw [poolRange, p.ends_eq.1, p.ends_eq.2]
  cases p.asFour <;> rfl

/-- The allocator of the IPv4 range that is scanned. A gateway of sixteen bytes is none of its addresses. -/
def NetAllocator.onFour (pa : NetAllocator) (q : Prefix) : PoolAllocator where
  pool :=
    { subnet := q
      gateway := if pa.pool.gateway.length = 4 then pa.pool.gateway else Dhcp.networkAddr q
      leaseSeconds := pa.pool.leaseSeconds
      four := by
        split
        · assumption
        · exact length_networkAddr q }
  reservations := pa.reservations
  leases := pa.leases
  ips := pa.ips

theorem NetAllocator.search_onFour {pa : NetAllocator} {q : Prefix} (hq : pa.pool.subnet.asFour = some q) (mac : Str)
    (stop : List UInt8) (fuel : ℕ) {ip : List UInt8} (hlen : ip.length = 4) :
    pa.search mac stop fuel ip = (pa.onFour q).search mac stop fuel ip := by
  induction fuel generalizing ip with
  | zero => rfl
  | succ fuel ih =>
    rw [search, PoolAllocator.search, Net.isNetworkOrBroadcast_eq, hq, Option.map_some]
    have husable : (pa.onFour q).usable ip mac = pa.usable ip mac := rfl
    have hskip : (isNetworkOrBroadcast ip q || !pa.usable ip mac || ip == pa.pool.gateway) =
        (isNetworkOrBroadcast ip q || !pa.usable ip mac || ip == (pa.onFour q).pool.gateway) := by
      by_cases hg : pa.pool.gateway.length = 4
      · simp [onFour, hg]
      · have hne : ip ≠ pa.pool.gateway := fun h => hg (h ▸ hlen)
        by_cases hnet : ip = Dhcp.networkAddr q
        · simp [isNetworkOrBroadcast, hnet]
        · have h := beq_eq_false_iff_ne.2 hne
          have h' := beq_eq_false_iff_ne.2 hnet
          simp [onFour, hg, h, h']
    dsimp only
    rw [hskip, husable, ih ((length_nextIP ip).trans hlen)]
    rfl

/-! ### IPv4 -/

def Prefix.net (p : Prefix) : Net := ⟨p.addr, p.bits, .inr (.inl ⟨p.four, p.le⟩)⟩

theorem Prefix.asFour_net (p : Prefix) : p.net.asFour = some p := by
  obtain ⟨addr, bits, four, le⟩ := p
  have hpast : Net.past ⟨addr, bits, .inr (.inl ⟨four, le⟩)⟩ = false := by
    have : ¬ bits % 8 = 0 → bits / 8 < 4 := by omega
    simpa [Net.past] using this
  have hto : to4 addr = some addr := by rw [to4, if_pos four]
  simp only [net, Net.asFour, hpast, Bool.false_eq_true, if_false, hto, Option.bind_some, dif_pos four, Nat.min_eq_left le]

theorem Prefix.contains_net (p : Prefix) (ip : List UInt8) : p.net.contains ip = p.contains ip := by
  have hvalid : p.net.isValid = true := by
    rw [Net.isValid, bne_iff_ne]
    intro h
    have hlen : p.net.addr.length = 4 := p.four
    rw [h] at hlen
    cases hlen
  rw [Net.contains, hvalid, Bool.true_and, Net.size, contains, net, p.four]

/-- The allocator of an IPv4 pool as the allocator of any pool. -/
def PoolAllocator.net (pa : PoolAllocator) (name interface : Str) : NetAllocator where
  pool := ⟨name, interface, pa.pool.subnet.net, pa.pool.gateway, pa.pool.leaseSeconds⟩
  reservations := pa.reservations
  leases := pa.leases
  ips := pa.ips

theorem newPoolAllocator_net (pool : Pool) (rs : List Reservation) (ls : List Lease) (now : ℕ) (name interface : Str) :
    (newPoolAllocator pool rs ls now).net name interface =
      newNetAllocator ⟨name, interface, pool.subnet.net, pool.gateway, pool.leaseSeconds⟩ rs ls now := by
  have hres (pa : PoolAllocator) (r : Reservation) :
      (pa.net name interface).addReservation r = (pa.addReservation r).net name interface := by
    rw [NetAllocator.addReservation, PoolAllocator.addReservation]
    cases parseAddr r.ipAddress <;> rfl
  have hlease (pa : PoolAllocator) (l : Lease) :
      (pa.net name interface).addLease now l = (pa.addLease now l).net name interface := by
    rw [NetAllocator.addLease, PoolAllocator.addLease]
    split
    · cases parseAddr l.ipAddress <;> rfl
    · rfl
  rw [newPoolAllocator, newNetAllocator, ← List.foldl_hom (fun pa : PoolAllocator => pa.net name interface) hlease,
    ← List.foldl_hom (fun pa : PoolAllocator => pa.net name interface) hres]
  rfl

namespace PoolAllocator

variable (pa : PoolAllocator) (name interface mac : Str)

theorem onFour_net : (pa.net name interface).onFour pa.pool.subnet = pa := by
  obtain ⟨⟨subnet, gateway, leaseSeconds, four⟩, reservations, leases, ips⟩ := pa
  simp [net, NetAllocator.onFour, four]

theorem allocateFromRange_net : (pa.net name interface).allocateFromRange mac =
    (pa.allocateFromRange mac).map (fun r => (r.1, r.2.net name interface)) := by
  have hq : (pa.net name interface).pool.subnet.asFour = some pa.pool.subnet := pa.pool.subnet.asFour_net
  have hl : (pa.net name interface).leases = pa.leases := rfl
  rw [NetAllocator.allocateFromRange, allocateFromRange, hl]
  cases (pa.leases.lookup mac).bind (fun l => parseAddr l.ipAddress) with
  | some ip => rfl
  | none =>
  dsimp only
  rw [Net.poolRange_eq, hq, Option.map_some, poolRange]
  dsimp only
  rw [NetAllocator.search_onFour hq _ _ _ ((length_nextIP _).trans (length_networkAddr _)), onFour_net, Option.map_map]
  refine congrArg (fun f => Option.map f _) (funext fun found => ?_)
  cases found <;> rfl

theorem requestable_net (ip : List UInt8) :
    (pa.net name interface).requestable ip mac = some (pa.requestable ip mac) := by
  have hq : (pa.net name interface).pool.subnet.asFour = some pa.pool.subnet := pa.pool.subnet.asFour_net
  have hc : (pa.net name interface).pool.subnet.contains ip = pa.pool.subnet.contains ip := pa.pool.subnet.contains_net ip
  have husable : (pa.net name interface).usable ip mac = pa.usable ip mac := rfl
  rw [NetAllocator.requestable, requestable, Net.isNetworkOrBroadcast_eq, hq, hc, husable]
  split
  · next h => simp [h]
  · next h => simp [h]

/-- **On an IPv4 pool** the allocator is the one of the server. -/
theorem allocateForDiscover_net (requestedIP : Option (List UInt8)) :
    (pa.net name interface).allocateForDiscover mac requestedIP =
      (pa.allocateForDiscover mac requestedIP).map (fun r => (r.1, r.2.net name interface)) := by
  have hserved : ((pa.net name interface).reservations.lookup mac).filter (fun ip => (pa.net name interface).unowned ip mac) =
      (pa.reservations.lookup mac).filter (fun ip => pa.unowned ip mac) := rfl
  unfold NetAllocator.allocateForDiscover allocateForDiscover
  rw [hserved]
  cases (pa.reservations.lookup mac).filter (fun ip => pa.unowned ip mac) with
  | some reserved => rfl
  | none =>
    cases requestedIP with
    | none => exact allocateFromRange_net pa name interface mac
    | some ip =>
      dsimp only
      rw [requestable_net]
      cases h : pa.requestable ip mac with
      | false => simpa [Option.filter, h] using allocateFromRange_net pa name interface mac
      | true => simp [Option.filter, h]

theorem allocateForRequest_net (requestedIP : Option (List UInt8)) :
    (pa.net name interface).allocateForRequest mac requestedIP =
      (pa.allocateForRequest mac requestedIP).map (fun r => (r.1, r.2.net name interface)) := by
  have hres : (pa.net name interface).reservations.lookup mac = pa.reservations.lookup mac := rfl
  unfold NetAllocator.allocateForRequest allocateForRequest
  rw [hres]
  cases pa.reservations.lookup mac with
  | some reserved =>
    have howner : (pa.net name interface).unowned reserved mac = pa.unowned reserved mac := rfl
    dsimp only
    rw [howner]
    split <;> rfl
  | none =>
    cases requestedIP with
    | none => exact allocateFromRange_net pa name interface mac
    | some ip =>
      dsimp only
      rw [requestable_net]
      cases h : pa.requestable ip mac with
      | false => rfl
      | true => rfl

theorem release_net : (pa.net name interface).release mac = (pa.release mac).net name interface := by
  have hl : (pa.net name interface).leases.lookup mac = pa.leases.lookup mac := rfl
  rw [NetAllocator.release, release, hl]
  cases pa.leases.lookup mac <;> rfl

theorem expireLeases_net (now : ℕ) : (pa.net name interface).expireLeases now = (pa.expireLeases now).net name interface := by
  have hl : (pa.net name interface).leases = pa.leases := rfl
  rw [NetAllocator.expireLeases, expireLeases, hl]
  refine List.foldl_hom (fun pa : PoolAllocator => pa.net name interface) fun pa e => ?_
  split <;> rfl

end PoolAllocator

end Velora.Dhcp
