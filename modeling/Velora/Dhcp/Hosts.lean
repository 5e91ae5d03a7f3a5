import Velora.Dhcp.Net

/-!
# What is allocated is a host

An address that the allocator gives is a stored reservation, the address a client has asked for, or one of a scan. The scan
skips the gateway and the ends it has computed, the requested address is compared with these ends only, and neither is safe
for every pool that is accepted (`allocation_range_left`). A request is answered within the subnet exactly when it
stays in the range (`allocation_range_iff`).
-/

namespace Velora.Dhcp

open Velora.Lib Velora.Lib.Text Velora.Lib.Ip

/-- The address is none of the ones in the subnet that are not for clients. -/
structure NetPool.Spares (p : NetPool) (ip : List UInt8) : Prop where
  not_first : value ip ≠ p.subnet.first
  not_last : value ip ≠ p.subnet.last
  not_gateway : ip ≠ p.gateway

/-- An address of the subnet that a client may have. -/
structure NetPool.IsHost (p : NetPool) (ip : List UInt8) : Prop extends p.Spares ip where
  inside : p.subnet.contains ip = true

/-- A scan of the pool gives hosts only. -/
def NetPool.scannable (p : NetPool) : Bool := p.subnet.addr.length == 4 && p.subnet.asFour.any Prefix.scannable

theorem Net.length_of_contains {p : Net} {ip : List UInt8} (h : p.contains ip = true) : ip.length = p.addr.length := by
  simp only [contains, Bool.and_eq_true, beq_iff_eq] at h
  exact h.1.2

theorem Net.eq_net {p : Net} (h : p.addr.length = 4) : ∃ q : Prefix, p = q.net := by
  have hle : p.bits ≤ 32 := by
    rcases p.wf with hnil | ⟨-, hle⟩ | ⟨hlen, -⟩
    · rw [hnil] at h
      cases h
    · exact hle
    · cases hlen.symm.trans h
  exact ⟨⟨p.addr, p.bits, h, hle⟩, rfl⟩

theorem Prefix.ends_net (p : Prefix) : p.net.first = p.first ∧ p.net.last = p.last := by
  have hsize : p.net.size = p.size := by rw [Net.size, size, net, p.four]
  have hfirst : p.net.first = p.first := by rw [Net.first, first, hsize, net]
  exact ⟨hfirst, by rw [Net.last, last, hsize, hfirst]⟩

namespace NetAllocator

/-- The address is a stored reservation. -/
def Reserved (pa : NetAllocator) (ip : List UInt8) : Prop := ∃ mac, pa.reservations.lookup mac = some ip

/-- The allocator comes to an answer, and an address that is no reservation is a host of the subnet. -/
def Yields (pa : NetAllocator) (res : Option (Option (List UInt8) × NetAllocator)) : Prop :=
  ∃ r pa', res = some (r, pa') ∧ ∀ ip, r = some ip → pa.Reserved ip ∨ pa.pool.IsHost ip

def Answers (pa : NetAllocator) (a : Ask) : Prop := pa.Yields (pa.answer a)

/-- No reservation answers a DISCOVER. -/
def Unserved (pa : NetAllocator) (mac : Str) : Prop :=
  ∀ reserved, pa.reservations.lookup mac = some reserved → pa.unowned reserved mac = false

variable {pa pa' : NetAllocator} {mac : Str} {ip : List UInt8} {q : Prefix}

/-- Only the client itself can have a usable address reserved. -/
theorem reserved_of_usable {mac' : Str} (hu : pa.usable ip mac = true) (h : pa.reservations.lookup mac' = some ip) :
    mac' = mac := by
  rw [usable, Bool.and_eq_true, List.all_eq_true] at hu
  simpa using hu.2 ⟨mac', ip⟩ (AList.mem_lookup_iff.1 h)

theorem not_reserved (hu : pa.usable ip mac = true) (hserved : pa.Unserved mac) : ¬ pa.Reserved ip := by
  rintro ⟨mac', h⟩
  obtain rfl := reserved_of_usable hu h
  rw [usable, Bool.and_eq_true, hserved ip h] at hu
  cases hu.1

/-! ### The scan -/

/-- What the scan may stop at is a host if it is one of the range of four bytes. -/
theorem isHost_iff (h : (pa.onFour q).Stops mac ip) (hq : pa.pool.subnet = q.net) :
    pa.pool.IsHost ip ↔ q.IsHost (pa.onFour q).pool.gateway ip := by
  have hcontains : pa.pool.subnet.contains ip = q.contains ip := hq ▸ q.contains_net ip
  have hends : pa.pool.subnet.first = q.first ∧ pa.pool.subnet.last = q.last := hq ▸ q.ends_net
  have hgateway : ip ≠ pa.pool.gateway := by
    intro heq
    have hlen : pa.pool.gateway.length = 4 := heq ▸ h.length
    exact h.gateway (by rw [heq, onFour]; simp only [hlen, if_true])
  constructor
  · intro hh
    exact ⟨hcontains ▸ hh.inside, hends.1 ▸ hh.not_first, hends.2 ▸ hh.not_last, h.gateway⟩
  · intro hh
    exact ⟨⟨hends.1 ▸ hh.not_first, hends.2 ▸ hh.not_last, hgateway⟩, hcontains ▸ hh.inside⟩

/-- What a scan stops at: it is a host if and only if the pool can be scanned. -/
theorem isHost_scan (hq : pa.pool.subnet.asFour = some q)
    (h : (pa.onFour q).search mac (broadcastAddr q) (2 ^ 32 + 1) (nextIP (networkAddr q)) = some (some ip)) :
    (pa.onFour q).Stops mac ip ∧ (pa.pool.IsHost ip ↔ pa.pool.scannable = true) := by
  have hstops := PoolAllocator.search_stops h ((length_nextIP _).trans (length_networkAddr q))
  refine ⟨hstops, ?_⟩
  by_cases hfour : pa.pool.subnet.addr.length = 4
  · obtain ⟨q', hq'⟩ := Net.eq_net hfour
    obtain rfl : q' = q := by
      rw [hq', Prefix.asFour_net] at hq
      exact Option.some.inj hq
    have hscan : pa.pool.scannable = (pa.onFour q').pool.subnet.scannable := by simp [NetPool.scannable, hfour, hq, onFour]
    rw [isHost_iff hstops hq', hscan]
    cases hs : (pa.onFour q').pool.subnet.scannable with
    | true =>
      obtain ⟨r, hr, hhost, -⟩ := PoolAllocator.scan_hosts hs mac
      obtain rfl := Option.some.inj (hr.symm.trans h)
      exact ⟨fun _ => rfl, fun _ => (hhost ip rfl).1⟩
    | false =>
      obtain ⟨found, hr, hno⟩ := PoolAllocator.scan_astray hs h
      cases hr
      exact ⟨fun hh => absurd hh hno, by simp⟩
  · -- a subnet of sixteen bytes has no address of four
    have hscan : pa.pool.scannable = false := by simp [NetPool.scannable, hfour]
    rw [hscan]
    refine ⟨fun hh => absurd (Net.length_of_contains hh.inside) ?_, by simp⟩
    rw [hstops.length]
    exact Ne.symm hfour

/-! ### Runs -/

/-- What holds after every run: the gateway is in the subnet, and the address of a lease comes from a scan. -/
structure Sound (pa : NetAllocator) : Prop where
  gateway : pa.pool.subnet.contains pa.pool.gateway = true
  leased : ∀ mac l, pa.leases.lookup mac = some l → ∃ ip, parseAddr l.ipAddress = some ip ∧ ¬ pa.Reserved ip ∧
    ip.length = 4 ∧ (pa.pool.IsHost ip ↔ pa.pool.scannable = true)

/-- The two ways an allocation from the range ends. -/
theorem allocateFromRange_cases {r : Option (List UInt8)} (ha : pa.allocateFromRange mac = some (r, pa')) :
    (∃ l ip, pa.leases.lookup mac = some l ∧ parseAddr l.ipAddress = some ip ∧ r = some ip ∧ pa' = pa) ∨
    ∃ q, pa.pool.subnet.asFour = some q ∧
      (pa.onFour q).search mac (broadcastAddr q) (2 ^ 32 + 1) (nextIP (networkAddr q)) = some r ∧
      (r = none ∧ pa' = pa ∨ ∃ ip, r = some ip ∧
        pa' = { pa with
          ips := pa.ips.insert ip mac
          leases := pa.leases.insert mac { macAddress := mac, ipAddress := addrString ip, status := .active } }) := by
  rw [allocateFromRange] at ha
  split at ha
  · next ip hip =>
    obtain ⟨l, hl, hparse⟩ := Option.bind_eq_some_iff.1 hip
    cases ha
    exact .inl ⟨l, ip, hl, hparse, rfl, rfl⟩
  · rw [Net.poolRange_eq] at ha
    cases hq : pa.pool.subnet.asFour with
    | none =>
      rw [hq] at ha
      cases ha
    | some q =>
      rw [hq, Option.map_some, poolRange] at ha
      dsimp only at ha
      rw [search_onFour hq _ _ _ ((length_nextIP _).trans (length_networkAddr q))] at ha
      obtain ⟨found, hfound, hr⟩ := Option.map_eq_some_iff.1 ha
      cases found with
      | none =>
        cases hr
        exact .inr ⟨q, rfl, hfound, .inl ⟨rfl, rfl⟩⟩
      | some ip =>
        cases hr
        exact .inr ⟨q, rfl, hfound, .inr ⟨ip, rfl, rfl⟩⟩

theorem allocateFromRange_sound {r : Option (List UInt8)} (h : pa.Sound) (hserved : pa.Unserved mac)
    (ha : pa.allocateFromRange mac = some (r, pa')) : pa'.Sound := by
  rcases allocateFromRange_cases ha with ⟨-, -, -, -, -, rfl⟩ | ⟨q, hq, hsearch, ⟨-, rfl⟩ | ⟨ip, rfl, rfl⟩⟩
  · exact h
  · exact h
  · obtain ⟨hstops, hhost⟩ := isHost_scan hq hsearch
    have hno : ¬ pa.Reserved ip := not_reserved hstops.usable hserved
    refine ⟨h.gateway, fun mac' l hl => ?_⟩
    dsimp only at hl
    by_cases hmac : mac' = mac
    · subst hmac
      rw [AList.lookup_insert, Option.some.injEq] at hl
      subst hl
      exact ⟨ip, PoolAllocator.parseAddr_addrString_four hstops.length, hno, hstops.length, hhost⟩
    · rw [AList.lookup_insert_ne hmac] at hl
      exact h.leased mac' l hl

theorem unserved_iff :
    (pa.reservations.lookup mac).filter (fun reserved => pa.unowned reserved mac) = none ↔ pa.Unserved mac := by
  rw [Option.filter_eq_none_iff]
  exact forall₂_congr fun reserved _ => by rw [Bool.not_eq_true]

theorem unserved_of_none (h : pa.reservations.lookup mac = none) : pa.Unserved mac := by
  intro reserved hr
  rw [h] at hr
  cases hr

theorem answer_sound {a : Ask} {r : Option (List UInt8)} (h : pa.Sound) (ha : pa.answer a = some (r, pa')) : pa'.Sound := by
  cases a with
  | discover mac requestedIP =>
    rw [answer] at ha
    unfold allocateForDiscover at ha
    split at ha
    · cases ha
      exact h
    next hfilter =>
    have hserved := unserved_iff.1 hfilter
    split at ha
    · exact allocateFromRange_sound h hserved ha
    split at ha
    · cases ha
    · cases ha
      exact h
    · exact allocateFromRange_sound h hserved ha
  | request mac requestedIP =>
    rw [answer] at ha
    unfold allocateForRequest at ha
    split at ha
    · split at ha <;> cases ha <;> exact h
    next hnone =>
    split at ha
    · exact allocateFromRange_sound h (unserved_of_none hnone) ha
    split at ha
    · cases ha
    · cases ha
      exact h
    · cases ha
      exact h

theorem drop_lookup {l l' : Lease} {mac' : Str} (h : (pa.drop mac l).leases.lookup mac' = some l') :
    pa.leases.lookup mac' = some l' := by
  rw [drop] at h
  dsimp only at h
  by_cases hmac : mac' = mac
  · rw [hmac, AList.lookup_erase] at h
    cases h
  · rwa [AList.lookup_erase_ne hmac] at h

theorem drop_sound (h : pa.Sound) (mac : Str) (l : Lease) : (pa.drop mac l).Sound :=
  ⟨h.gateway, fun mac' l' hl => h.leased mac' l' (drop_lookup hl)⟩

/-- A step keeps what the answers and the ends of leases keep. -/
theorem step_keeps {P : NetAllocator → Prop} (hask : ∀ pa a r pa', P pa → pa.answer a = some (r, pa') → P pa')
    (hdrop : ∀ pa mac l, P pa → P (pa.drop mac l)) {e : Act} (h : P pa) (hs : pa.step e = some pa') : P pa' := by
  cases e with
  | ask a =>
    obtain ⟨⟨r, pa''⟩, ha, rfl⟩ := Option.map_eq_some_iff.1 hs
    exact hask pa a r pa'' h ha
  | release mac =>
    cases hs
    rw [release]
    split
    · exact h
    · exact hdrop pa mac _ h
  | expireLeases now =>
    cases hs
    refine List.foldlRecOn _ _ (motive := P) h fun pa h e _ => ?_
    split
    · exact hdrop pa e.1 e.2 h
    · exact h

/-- **A step** keeps it. -/
theorem step_sound {e : Act} (h : pa.Sound) (hs : pa.step e = some pa') : pa'.Sound :=
  step_keeps (fun _ _ _ _ h ha => answer_sound h ha) (fun _ mac l h => drop_sound h mac l) h hs

theorem newNetAllocator_frame (pool : NetPool) (rs : List Reservation) (now : ℕ) :
    (newNetAllocator pool rs [] now).pool = pool ∧ (newNetAllocator pool rs [] now).leases = ∅ ∧
      (newNetAllocator pool rs [] now).ips = ∅ := by
  refine List.foldlRecOn rs addReservation (motive := fun pa => pa.pool = pool ∧ pa.leases = ∅ ∧ pa.ips = ∅) ?_ ?_
  · exact ⟨rfl, rfl, rfl⟩
  · rintro pa h r -
    rw [addReservation]
    split <;> exact h

theorem newNetAllocator_sound {pool : NetPool} (hv : validatePool pool = none) (rs : List Reservation) (now : ℕ) :
    (newNetAllocator pool rs [] now).Sound := by
  obtain ⟨hp, hl, -⟩ := newNetAllocator_frame pool rs now
  refine ⟨?_, fun mac l h => ?_⟩
  · rw [hp]
    unfold validatePool at hv
    split_ifs at hv with _ _ _ _ hcontains _
    simpa using hcontains
  · rw [hl, AList.lookup_empty] at h
    cases h

/-! ### The answers -/

/-- A scan for the client is safe: the range of four bytes can be scanned, and it is the range of the subnet or there is
nothing in it that the client could take. -/
def Scans (pa : NetAllocator) (mac : Str) : Prop :=
  ∃ q, pa.pool.subnet.asFour = some q ∧ q.scannable = true ∧
    (pa.pool.subnet.addr.length = 4 ∨ pa.leases.lookup mac = none ∧ ∀ ip, ip.length = 4 →
      value (networkAddr q) < value ip → value ip < value (broadcastAddr q) → pa.usable ip mac = false)

theorem yields_none : ¬ pa.Yields none := by
  rintro ⟨r, pa', h, -⟩
  cases h

theorem yields_some {r : Option (List UInt8)} :
    pa.Yields (some (r, pa')) ↔ ∀ ip, r = some ip → pa.Reserved ip ∨ pa.pool.IsHost ip := by
  constructor
  · rintro ⟨r', pa'', h, hall⟩
    cases h
    exact hall
  · exact fun h => ⟨r, pa', rfl, h⟩

theorem scannable_of_scans (h : pa.Scans mac) (hfour : pa.pool.subnet.addr.length = 4) : pa.pool.scannable = true := by
  obtain ⟨q, hq, hs, -⟩ := h
  simp [NetPool.scannable, hfour, hq, hs]

theorem scans_of_scannable (h : pa.pool.scannable = true) : pa.Scans mac := by
  simp only [NetPool.scannable, Bool.and_eq_true, beq_iff_eq, Option.any_eq_true] at h
  obtain ⟨hfour, q, hq, hs⟩ := h
  exact ⟨q, hq, hs, .inl hfour⟩

theorem allocateFromRange_of {r : Option (List UInt8)} (hl : pa.leases.lookup mac = none) (hq : pa.pool.subnet.asFour = some q)
    (hr : (pa.onFour q).search mac (broadcastAddr q) (2 ^ 32 + 1) (nextIP (networkAddr q)) = some r) :
    ∃ pa', pa.allocateFromRange mac = some (r, pa') := by
  rw [allocateFromRange, hl, Option.bind_none]
  dsimp only
  rw [Net.poolRange_eq, hq, Option.map_some, poolRange]
  dsimp only
  rw [search_onFour hq _ _ _ ((length_nextIP _).trans (length_networkAddr q)), hr, Option.map_some]
  cases r <;> exact ⟨_, rfl⟩

/-- A client that has a lease is given its address again. -/
theorem range_leased {l : Lease} (h : pa.Sound) (hl : pa.leases.lookup mac = some l) :
    pa.Yields (pa.allocateFromRange mac) ↔ pa.Scans mac := by
  obtain ⟨ip, hparse, hno, -, hhost⟩ := h.leased mac l hl
  have hr : pa.allocateFromRange mac = some (some ip, pa) := by rw [allocateFromRange, hl, Option.bind_some, hparse]
  rw [hr, yields_some]
  constructor
  · intro hall
    rcases hall ip rfl with hres | hh
    · exact absurd hres hno
    · exact scans_of_scannable (hhost.1 hh)
  · intro hs ip' hip
    cases hip
    refine .inr (hhost.2 (scannable_of_scans hs ?_))
    obtain ⟨q, -, -, hfour | ⟨hnone, -⟩⟩ := hs
    · exact hfour
    · cases hl.symm.trans hnone

/-- In a subnet of sixteen bytes a scan that stops at no address has passed over the gateway with the ends. -/
theorem unusable_of_none (h : pa.Sound) (hfour : pa.pool.subnet.addr.length ≠ 4)
    (hs : (pa.onFour q).pool.subnet.scannable = true)
    (hsearch : (pa.onFour q).search mac (broadcastAddr q) (2 ^ 32 + 1) (nextIP (networkAddr q)) = some none)
    {x : List UInt8} (hx : x.length = 4) (hlo : value (networkAddr q) < value x) (hhi : value x < value (broadcastAddr q)) :
    pa.usable x mac = false := by
  obtain ⟨r, hr, -, hnone⟩ := PoolAllocator.scan_hosts hs mac
  obtain rfl := Option.some.inj (hr.symm.trans hsearch)
  rcases hnone rfl x hx hlo hhi with hedge | husable | hgateway
  · rcases edge_iff.1 hedge with rfl | rfl
    · exact absurd hlo (lt_irrefl _)
    · exact absurd hhi (lt_irrefl _)
  · exact husable
  · have hlen : pa.pool.gateway.length ≠ 4 := by rwa [Net.length_of_contains h.gateway]
    have hq : (pa.onFour q).pool.gateway = networkAddr q := if_neg hlen
    rw [hgateway, hq] at hlo
    exact absurd hlo (lt_irrefl _)

theorem scans_of_yields (h : pa.Sound) (hserved : pa.Unserved mac) (hl : pa.leases.lookup mac = none)
    (hy : pa.Yields (pa.allocateFromRange mac)) : pa.Scans mac := by
  obtain ⟨r, pa', ha, hall⟩ := hy
  rcases allocateFromRange_cases ha with ⟨l, -, hl', -⟩ | ⟨q, hq, hsearch, -⟩
  · cases hl.symm.trans hl'
  -- the scan stops at no address if the pool cannot be scanned
  have hstop : pa.pool.scannable = false → r = none := by
    intro hscan
    cases r with
    | none => rfl
    | some ip =>
      obtain ⟨hstops, hhost⟩ := isHost_scan hq hsearch
      rcases hall ip rfl with hres | hh
      · exact absurd hres (not_reserved hstops.usable hserved)
      · rw [hhost.1 hh] at hscan
        cases hscan
  cases hs : (pa.onFour q).pool.subnet.scannable with
  | false =>
    obtain ⟨found, hr, -⟩ := PoolAllocator.scan_astray hs hsearch
    have hscan : pa.pool.scannable = false := by
      have hs' : q.scannable = false := hs
      simp [NetPool.scannable, hq, hs']
    cases hr.symm.trans (hstop hscan)
  | true =>
    refine ⟨q, hq, hs, ?_⟩
    by_cases hfour : pa.pool.subnet.addr.length = 4
    · exact .inl hfour
    · obtain rfl := hstop (by simp [NetPool.scannable, hfour])
      exact .inr ⟨hl, fun x hx hlo hhi => unusable_of_none h hfour hs hsearch hx hlo hhi⟩

theorem yields_of_scans (hl : pa.leases.lookup mac = none) (hscans : pa.Scans mac) :
    pa.Yields (pa.allocateFromRange mac) := by
  obtain ⟨q, hq, hs, hrange⟩ := hscans
  have hs' : (pa.onFour q).pool.subnet.scannable = true := hs
  obtain ⟨r, hr, hhosts, -⟩ := PoolAllocator.scan_hosts hs' mac
  obtain ⟨pa', ha⟩ := allocateFromRange_of hl hq hr
  refine ⟨r, pa', ha, fun ip hip => .inr ?_⟩
  subst hip
  obtain ⟨hstops, hhost⟩ := isHost_scan hq hr
  have hscans : pa.Scans mac := ⟨q, hq, hs, hrange⟩
  rcases hrange with hfour | ⟨-, hrange⟩
  · exact hhost.2 (scannable_of_scans hscans hfour)
  · obtain ⟨-, hlo, hhi⟩ := hhosts ip rfl
    have hno := hrange ip hstops.length hlo hhi
    have husable : pa.usable ip mac = true := hstops.usable
    rw [husable] at hno
    cases hno

/-- An allocation from the range, for a client that no reservation answers. -/
theorem range_iff (h : pa.Sound) (hserved : pa.Unserved mac) : pa.Yields (pa.allocateFromRange mac) ↔ pa.Scans mac := by
  cases hl : pa.leases.lookup mac with
  | some l => exact range_leased h hl
  | none => exact ⟨scans_of_yields h hserved hl, yields_of_scans hl⟩

/-- The request stays in the range: a reservation answers it, or the ends of the subnet can be computed if they are needed,
an address that is granted as it is asked for is none of those that are not for clients, and a scan is safe. -/
def Fits (pa : NetAllocator) : Ask → Prop
  | .discover mac requestedIP =>
    ¬ pa.Unserved mac ∨
      match requestedIP with
      | none => pa.Scans mac
      | some ip =>
        match pa.requestable ip mac with
        | none => False
        | some true => pa.pool.Spares ip
        | some false => pa.Scans mac
  | .request mac requestedIP =>
    pa.reservations.lookup mac ≠ none ∨
      match requestedIP with
      | none => pa.Scans mac
      | some ip =>
        match pa.requestable ip mac with
        | none => False
        | some true => pa.pool.Spares ip
        | some false => True

theorem requestable_some (h : pa.requestable ip mac = some true) :
    pa.usable ip mac = true ∧ pa.pool.subnet.contains ip = true := by
  rw [requestable] at h
  split at h
  · next hboth => simpa using hboth
  · cases h

/-- An address that is granted as it is asked for. -/
theorem granted_iff (hserved : pa.Unserved mac) (h : pa.requestable ip mac = some true) :
    pa.Yields (some (some ip, pa)) ↔ pa.pool.Spares ip := by
  obtain ⟨husable, hinside⟩ := requestable_some h
  rw [yields_some]
  constructor
  · intro hall
    rcases hall ip rfl with hres | hh
    · exact absurd hres (not_reserved husable hserved)
    · exact hh.toSpares
  · intro hspares ip' hip
    cases hip
    exact .inr ⟨hspares, hinside⟩

theorem discover_iff (h : pa.Sound) (mac : Str) (requestedIP : Option (List UInt8)) :
    pa.Answers (.discover mac requestedIP) ↔ pa.Fits (.discover mac requestedIP) := by
  unfold Answers answer Fits allocateForDiscover
  dsimp only
  cases hfilter : (pa.reservations.lookup mac).filter (fun reserved => pa.unowned reserved mac) with
  | some reserved =>
    have hres := Option.filter_eq_some_iff.1 hfilter
    have hserved : ¬ pa.Unserved mac := fun hno => by rw [unserved_iff.2 hno] at hfilter; cases hfilter
    rw [yields_some]
    refine iff_of_true (fun ip hip => ?_) (.inl hserved)
    cases hip
    exact .inl ⟨mac, hres.1⟩
  | none =>
    have hserved := unserved_iff.1 hfilter
    rw [or_iff_right (not_not.2 hserved)]
    cases requestedIP with
    | none => exact range_iff h hserved
    | some ip =>
      dsimp only
      cases hreq : pa.requestable ip mac with
      | none => exact iff_of_false yields_none id
      | some b =>
        cases b with
        | true => exact granted_iff hserved hreq
        | false => exact range_iff h hserved

theorem request_iff (h : pa.Sound) (mac : Str) (requestedIP : Option (List UInt8)) :
    pa.Answers (.request mac requestedIP) ↔ pa.Fits (.request mac requestedIP) := by
  unfold Answers answer Fits allocateForRequest
  dsimp only
  cases hres : pa.reservations.lookup mac with
  | some reserved =>
    refine iff_of_true ?_ (.inl (by simp))
    dsimp only
    split
    · rw [yields_some]
      intro ip hip
      cases hip
      exact .inl ⟨mac, hres⟩
    · rw [yields_some]
      intro ip hip
      cases hip
  | none =>
    have hserved := unserved_of_none hres
    rw [or_iff_right (not_not.2 rfl)]
    cases requestedIP with
    | none => exact range_iff h hserved
    | some ip =>
      dsimp only
      cases hreq : pa.requestable ip mac with
      | none => exact iff_of_false yields_none id
      | some b =>
        cases b with
        | true => exact granted_iff hserved hreq
        | false =>
          rw [yields_some]
          exact iff_of_true (fun ip hip => by cases hip) trivial

theorem answers_iff (h : pa.Sound) : ∀ a : Ask, pa.Answers a ↔ pa.Fits a
  | .discover mac requestedIP => discover_iff h mac requestedIP
  | .request mac requestedIP => request_iff h mac requestedIP

end NetAllocator

/-- **Allocation from the range.** For every pool that is accepted and after every run of allocations, releases and expiries,
a request is answered, and with an address of the subnet for clients or a stored reservation, if and only if it stays in the
range. -/
theorem allocation_range_iff {pool : NetPool} (hv : validatePool pool = none) (rs : List Reservation) (now : ℕ)
    {es : List Act} {pa : NetAllocator} (hrun : run NetAllocator.step (newNetAllocator pool rs [] now) es = some pa) (a : Ask) :
    pa.Answers a ↔ pa.Fits a :=
  NetAllocator.answers_iff
    (run_keeps (fun _ _ _ h hs => NetAllocator.step_sound h hs) hrun (NetAllocator.newNetAllocator_sound hv rs now)) a

/-! ### A home network -/

def lan : NetPool where
  name := "lan".toList
  interface := "eth0".toList
  subnet := home.subnet.net
  gateway := home.gateway
  leaseSeconds := home.leaseSeconds

/-- A pool of one address, which is also its gateway. -/
def solitary : NetPool := { lan with subnet := ⟨[192, 168, 1, 5], 32, by decide⟩, gateway := [192, 168, 1, 5] }

/-- The first client gets an address of the range, the second one asks for one and the first one gives its own back. -/
def lanDay : List Act :=
  [.ask (.discover "02:00:00:00:00:01".toList none),
   .ask (.discover "02:00:00:00:00:02".toList none),
   .ask (.request "02:00:00:00:00:03".toList (some [192, 168, 1, 40])),
   .release "02:00:00:00:00:01".toList]

theorem allocation_range_lan : ∃ pa, run NetAllocator.step (newNetAllocator lan [] [] newYear) lanDay = some pa ∧
    pa.ips.lookup [192, 168, 1, 3] = some "02:00:00:00:00:02".toList ∧
    pa.Answers (.discover "02:00:00:00:00:04".toList none) := by
  have hrun : (run NetAllocator.step (newNetAllocator lan [] [] newYear) lanDay).any (fun pa =>
      pa.pool.scannable && pa.ips.lookup [192, 168, 1, 3] == some "02:00:00:00:00:02".toList) = true := by
    decide +kernel
  obtain ⟨pa, hs, hpa⟩ := (Option.any_eq_true _ _).1 hrun
  rw [Bool.and_eq_true, beq_iff_eq] at hpa
  exact ⟨pa, hs, hpa.2,
    (allocation_range_iff (by decide +kernel) [] newYear hs _).2 (.inr (NetAllocator.scans_of_scannable hpa.1))⟩

theorem NetAllocator.not_answers {pa : NetAllocator} {a : Ask} (ip : List UInt8) (hres : pa.reservations = ∅)
    (hip : (pa.answer a).map Prod.fst = some (some ip)) (hhost : ¬ pa.pool.IsHost ip) : ¬ pa.Answers a := by
  rintro ⟨r, pa', ha, hall⟩
  rw [ha, Option.map_some, Option.some.injEq] at hip
  rcases hall ip hip with ⟨mac, hmac⟩ | hh
  · rw [hres, AList.lookup_empty] at hmac
    cases hmac
  · exact hhost hh

/-- A client that asks for the address of the gateway gets it, and the scan of a pool of one address starts after its end. -/
theorem allocation_range_left :
    (validatePool lan = none ∧
      ¬ (newNetAllocator lan [] [] newYear).Answers (.request "02:00:00:00:00:01".toList (some [192, 168, 1, 1]))) ∧
    validatePool solitary = none ∧
      ¬ (newNetAllocator solitary [] [] newYear).Answers (.discover "02:00:00:00:00:01".toList none) := by
  refine ⟨⟨by decide +kernel, ?_⟩, by decide +kernel, ?_⟩
  · exact NetAllocator.not_answers [192, 168, 1, 1] rfl (by decide +kernel) fun h => h.not_gateway rfl
  · refine NetAllocator.not_answers [192, 168, 1, 6] rfl (by decide +kernel) fun h => ?_
    have hin := h.inside
    revert hin
    decide

end Velora.Dhcp
