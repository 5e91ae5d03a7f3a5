import Velora.Dhcp.Hosts
import Velora.Lib.Mac

/-!
# Reservations

The request that stores a reservation checks that its hardware address can be read, and keeps the texts as they are. The
allocator looks a client up by the text of the packet, so of all the spellings that are accepted one is found; the address
is not compared with the pool at all, the check for that (`ValidateReservation`) is used by tests only. A stored reservation
is honoured exactly when it has been written as the server looks for it and its address is a host of the pool
(`reservation_honoured_iff`, `fitting_iff_text`).

A reserved address with a zone, which is in no subnet, is read as no address.
-/

namespace Velora.Dhcp

open Velora.Lib Velora.Lib.Text Velora.Lib.Ip Velora.Lib.Mac

/-! ### Stored reservations -/

/-- A row of `dhcp_reservations`. -/
structure ReservationRow extends Reservation where
  id : ℤ := 0
  poolID : ℤ := 0
  hostname : Str := []

structure Tables where
  /-- the ids of the rows of `dhcp_pools` -/
  pools : List ℤ := []
  reservations : List ReservationRow := []
  nextID : ℤ := 1

namespace Tables

/-- The row cannot stand beside the other one: `UNIQUE(pool_id, mac_address)`, `UNIQUE(pool_id, ip_address)`. -/
def clash (row r : ReservationRow) : Bool :=
  row.poolID == r.poolID && (row.macAddress == r.macAddress || row.ipAddress == r.ipAddress)

/-- `CreateReservation`, or nothing when a constraint fails or the database does. -/
def createReservation (t : Tables) (r : ReservationRow) (stores : Bool) : Option (ReservationRow × Tables) :=
  if !stores || !t.pools.contains r.poolID || t.reservations.any (fun row => clash row r) then none
  else
    let row := { r with id := t.nextID }
    some (row, { t with reservations := t.reservations ++ [row], nextID := t.nextID + 1 })

/-- The reservations of a pool. The database sorts them by the text of the address, in an order of its own. -/
def listReservations (t : Tables) (poolID : ℤ) : List Reservation :=
  (t.reservations.filter (fun r => r.poolID == poolID)).map ReservationRow.toReservation

end Tables

/-! ### The request -/

inductive Reply where
  | failure (status : ℕ) (code message : Str)
  | created (r : ReservationRow)

section

variable (quote : Str → Str)

/-- `ValidateMAC`: the error, or nothing. The text is quoted with `%q`. -/
def validateMAC (mac : Str) : Option Str :=
  match parseMAC mac with
  | none =>
    let address := if mac = [] then [] else "address ".toList ++ mac ++ ": ".toList
    some ("invalid MAC address ".toList ++ quote mac ++ ": ".toList ++ address ++ "invalid MAC address".toList)
  | some hw => if hw.length ≠ 6 then some ("MAC address must be 6 bytes, got ".toList ++ decimal hw.length) else none

/-- `POST /api/v1/dhcp/pools/\x7bid\x7d/reservations`, with the number of the path if it is one and what `readJSON` gives. -/
def postReservation (t : Tables) (id : Option ℤ) (body : Except Reply ReservationRow) (stores : Bool) : Reply × Tables :=
  match id with
  | none => (.failure 400 "invalid_id".toList "Invalid pool ID".toList, t)
  | some id =>
    match body with
    | .error reply => (reply, t)
    | .ok reservation =>
      let reservation := { reservation with poolID := id }
      match validateMAC quote reservation.macAddress with
      | some err => (.failure 400 "invalid_mac".toList err, t)
      | none =>
        match t.createReservation reservation stores with
        | none => (.failure 500 "storage_error".toList "Failed to create reservation".toList, t)
        | some (row, t) => (.created row, t)

inductive Change where
  | createPool (id : ℤ)
  | deletePool (id : ℤ)
  | postReservation (id : Option ℤ) (body : Except Reply ReservationRow) (stores : Bool)
  | deleteReservation (id : ℤ)

/-- One change of the tables. The reservations of a pool go with it. -/
def Tables.step (t : Tables) : Change → Option Tables
  | .createPool id => some { t with pools := id :: t.pools }
  | .deletePool id =>
    some { t with pools := t.pools.filter (· != id), reservations := t.reservations.filter (fun r => r.poolID != id) }
  | .postReservation id body stores => some (postReservation quote t id body stores).2
  | .deleteReservation id => some { t with reservations := t.reservations.filter (fun r => r.id != id) }

/-! ### What is stored -/

/-- Every stored reservation has passed its check, and no two of a pool have the same texts. -/
structure Tables.Sound (t : Tables) : Prop where
  checked : ∀ r ∈ t.reservations, ∃ hw, parseMAC r.macAddress = some hw ∧ hw.length = 6
  unique : t.reservations.Pairwise (fun r r' => Tables.clash r r' = false)

variable {quote}

theorem validateMAC_none {mac : Str} : validateMAC quote mac = none ↔ ∃ hw, parseMAC mac = some hw ∧ hw.length = 6 := by
  rw [validateMAC]
  cases h : parseMAC mac with
  | none => exact iff_of_false (fun h => by cases h) (by rintro ⟨hw, h, -⟩; cases h)
  | some hw =>
    dsimp only
    by_cases hlen : hw.length = 6
    · rw [if_neg (not_not.2 hlen)]
      exact iff_of_true rfl ⟨hw, rfl, hlen⟩
    · rw [if_pos hlen]
      refine iff_of_false (fun h => by cases h) ?_
      rintro ⟨hw', h, hlen'⟩
      cases h
      exact hlen hlen'

/-- The text that the server writes for a client is accepted. -/
theorem validateMAC_mac {pkt : Packet} (h : pkt.chAddr.length = 6) : validateMAC quote pkt.mac = none :=
  validateMAC_none.2 ⟨pkt.chAddr, parseMAC_string h, h⟩

theorem Tables.sound_filter {t : Tables} (h : t.Sound) (keep : ReservationRow → Bool) (pools : List ℤ) :
    Tables.Sound { t with pools, reservations := t.reservations.filter keep } :=
  ⟨fun r hr => h.checked r (List.mem_of_mem_filter hr), h.unique.filter keep⟩

/-- **A reservation that is stored** clashes with none of the stored ones, and comes after them. -/
theorem Tables.createReservation_some {t t' : Tables} {r row : ReservationRow} {stores : Bool}
    (h : t.createReservation r stores = some (row, t')) :
    row = { r with id := t.nextID } ∧ (∀ r' ∈ t.reservations, clash r' row = false) ∧
      t'.reservations = t.reservations ++ [row] := by
  rw [createReservation] at h
  split at h
  · cases h
  next hok =>
    simp only [Bool.or_eq_true, not_or, Bool.not_eq_true, List.any_eq_false] at hok
    cases h
    exact ⟨rfl, hok.2, rfl⟩

theorem Tables.createReservation_sound {t t' : Tables} {r row : ReservationRow} {stores : Bool} (h : t.Sound)
    (hmac : ∃ hw, parseMAC r.macAddress = some hw ∧ hw.length = 6) (hrow : t.createReservation r stores = some (row, t')) :
    t'.Sound := by
  obtain ⟨rfl, hclash, hrows⟩ := createReservation_some hrow
  refine ⟨fun r' hr => ?_, ?_⟩
  · rw [hrows, List.mem_append, List.mem_singleton] at hr
    rcases hr with hr | rfl
    · exact h.checked r' hr
    · exact hmac
  · rw [hrows, List.pairwise_append]
    refine ⟨h.unique, List.pairwise_singleton _ _, fun r₁ hr₁ r₂ hr₂ => ?_⟩
    rw [List.mem_singleton.1 hr₂]
    exact hclash r₁ hr₁

/-- A request stores nothing or one reservation that has passed the check. -/
theorem postReservation_sound {t : Tables} (h : t.Sound) (id : Option ℤ) (body : Except Reply ReservationRow) (stores : Bool) :
    (postReservation quote t id body stores).2.Sound := by
  unfold postReservation
  split
  · exact h
  split
  · exact h
  dsimp only
  split
  · exact h
  next hmac =>
    split
    · exact h
    next hrow =>
      refine Tables.createReservation_sound h ?_ hrow
      exact validateMAC_none.1 hmac

theorem Tables.step_sound {t t' : Tables} {e : Change} (h : t.Sound) (hs : t.step quote e = some t') : t'.Sound := by
  cases e with
  | createPool id =>
    cases hs
    exact ⟨h.checked, h.unique⟩
  | deletePool id =>
    cases hs
    exact sound_filter h _ _
  | deleteReservation id =>
    cases hs
    exact sound_filter h _ _
  | postReservation id body stores =>
    cases hs
    exact postReservation_sound h id body stores

end

/-! ### The reservations of an allocator -/

namespace NetAllocator

variable {pa pa' : NetAllocator} {mac : Str} {ip : List UInt8} {r : Option (List UInt8)}

theorem foldl_addLease_reservations (now : ℕ) (ls : List Lease) (pa : NetAllocator) :
    (ls.foldl (addLease now) pa).reservations = pa.reservations := by
  refine List.foldlRecOn ls (addLease now) (motive := fun pa' => pa'.reservations = pa.reservations) rfl ?_
  intro pa' h l _
  rw [addLease]
  split
  · split <;> exact h
  · exact h

/-- Every stored reservation whose address can be read is there. -/
theorem lookup_reservations {pool : NetPool} {rs : List Reservation} (h : (rs.map Reservation.macAddress).Nodup)
    (ls : List Lease) (now : ℕ) : (newNetAllocator pool rs ls now).reservations.lookup mac = some ip ↔
      ∃ r ∈ rs, r.macAddress = mac ∧ parseAddr r.ipAddress = some ip := by
  rw [newNetAllocator, foldl_addLease_reservations]
  induction rs using List.reverseRecOn with
  | nil => exact iff_of_false (by rw [List.foldl_nil, AList.lookup_empty]; simp) (by simp)
  | append_singleton rs r ih =>
    rw [List.map_append, List.nodup_append] at h
    have hnew : ∀ r' ∈ rs, r'.macAddress ≠ r.macAddress := fun r' hr' =>
      h.2.2 _ (List.mem_map_of_mem hr') _ (List.mem_singleton.2 rfl)
    rw [List.foldl_append, List.foldl_cons, List.foldl_nil, addReservation]
    simp only [List.mem_append, List.mem_singleton, or_and_right, exists_or, exists_eq_left]
    split
    · next ip' hip' =>
      dsimp only
      by_cases hmac : mac = r.macAddress
      · subst hmac
        rw [AList.lookup_insert, hip']
        refine ⟨fun heq => .inr ⟨rfl, heq⟩, ?_⟩
        rintro (⟨r', hr', hmac, -⟩ | ⟨-, heq⟩)
        · exact absurd hmac (hnew r' hr')
        · exact heq
      · rw [AList.lookup_insert_ne hmac, ih h.1]
        exact ⟨.inl, fun h => h.resolve_right fun hr => hmac hr.1.symm⟩
    · next hnone =>
      rw [ih h.1, hnone]
      exact ⟨.inl, fun h => h.resolve_right fun hr => by cases hr.2⟩

/-! ### What a client is given -/

/-- What an answer to a client can be. -/
inductive Gives (pa : NetAllocator) (mac : Str) : Option (List UInt8) → NetAllocator → Prop
  | nothing : Gives pa mac none pa
  | reserved {ip : List UInt8} (h : pa.reservations.lookup mac = some ip) : Gives pa mac (some ip) pa
  | leased {ip : List UInt8} {l : Lease} (hl : pa.leases.lookup mac = some l) (h : parseAddr l.ipAddress = some ip) :
    Gives pa mac (some ip) pa
  | requested {ip : List UInt8} (h : pa.usable ip mac = true) : Gives pa mac (some ip) pa
  | scanned {ip : List UInt8} (hlen : ip.length = 4) (h : pa.usable ip mac = true) :
    Gives pa mac (some ip)
      { pa with
        ips := pa.ips.insert ip mac
        leases := pa.leases.insert mac { macAddress := mac, ipAddress := addrString ip, status := .active } }

theorem allocateFromRange_gives (ha : pa.allocateFromRange mac = some (r, pa')) : pa.Gives mac r pa' := by
  rcases allocateFromRange_cases ha with ⟨l, ip, hl, hparse, rfl, rfl⟩ | ⟨q, hq, hsearch, ⟨rfl, rfl⟩ | ⟨ip, rfl, rfl⟩⟩
  · exact .leased hl hparse
  · exact .nothing
  · obtain ⟨hstops, -⟩ := isHost_scan hq hsearch
    exact .scanned hstops.length hstops.usable

theorem allocateForDiscover_gives {requestedIP : Option (List UInt8)}
    (ha : pa.allocateForDiscover mac requestedIP = some (r, pa')) : pa.Gives mac r pa' := by
  unfold allocateForDiscover at ha
  split at ha
  · next reserved hres =>
    cases ha
    exact .reserved (Option.filter_eq_some_iff.1 hres).1
  split at ha
  · exact allocateFromRange_gives ha
  split at ha
  · cases ha
  · next hreq =>
    cases ha
    exact .requested (requestable_some hreq).1
  · exact allocateFromRange_gives ha

theorem allocateForRequest_gives {requestedIP : Option (List UInt8)}
    (ha : pa.allocateForRequest mac requestedIP = some (r, pa')) : pa.Gives mac r pa' := by
  unfold allocateForRequest at ha
  split at ha
  · next hres =>
    split at ha
    · cases ha
      exact .reserved hres
    · cases ha
      exact .nothing
  split at ha
  · exact allocateFromRange_gives ha
  split at ha
  · cases ha
  · next hreq =>
    cases ha
    exact .requested (requestable_some hreq).1
  · cases ha
    exact .nothing

theorem Gives.reservations (h : pa.Gives mac r pa') : pa'.reservations = pa.reservations := by cases h <;> rfl

/-- The address is reserved for the client, and leased to nobody else. -/
structure Guards (pa : NetAllocator) (owner : Str) (ip : List UInt8) : Prop where
  reserved : pa.reservations.lookup owner = some ip
  leased : ∀ mac l, pa.leases.lookup mac = some l → parseAddr l.ipAddress = some ip → mac = owner

variable {owner : Str}

theorem Gives.guards (h : pa.Gives mac r pa') (hg : pa.Guards owner ip) : pa'.Guards owner ip := by
  cases h with
  | scanned hlen hu =>
    refine ⟨hg.reserved, fun mac' l hl hparse => ?_⟩
    dsimp only at hl
    by_cases hmac : mac' = mac
    · subst hmac
      rw [AList.lookup_insert, Option.some.injEq] at hl
      subst hl
      rw [PoolAllocator.parseAddr_addrString_four hlen, Option.some.injEq] at hparse
      subst hparse
      exact (reserved_of_usable hu hg.reserved).symm
    · rw [AList.lookup_insert_ne hmac] at hl
      exact hg.leased mac' l hl hparse
  | _ => exact hg

theorem answer_gives {a : Ask} (ha : pa.answer a = some (r, pa')) : ∃ mac, pa.Gives mac r pa' := by
  cases a with
  | discover mac requestedIP => exact ⟨mac, allocateForDiscover_gives ha⟩
  | request mac requestedIP => exact ⟨mac, allocateForRequest_gives ha⟩

/-- **A step** keeps what is kept for a client. -/
theorem step_guards {e : Act} (hg : pa.Guards owner ip) (hs : pa.step e = some pa') : pa'.Guards owner ip := by
  refine step_keeps (P := fun pa => pa.Guards owner ip) (fun pa a r pa' hg ha => ?_) (fun pa mac l hg => ?_) hg hs
  · obtain ⟨mac, hgives⟩ := answer_gives ha
    exact hgives.guards hg
  · exact ⟨hg.reserved, fun mac' l' hl => hg.leased mac' l' (drop_lookup hl)⟩

theorem step_reservations {e : Act} (hs : pa.step e = some pa') : pa'.reservations = pa.reservations := by
  refine step_keeps (P := fun pa' => pa'.reservations = pa.reservations) (fun pa₁ a r pa₂ h ha => ?_) (fun _ _ _ h => h) rfl hs
  obtain ⟨mac, hgives⟩ := answer_gives ha
  exact hgives.reservations.trans h

/-- A client that the address is not kept for gets it only by a reservation of its own. -/
theorem Gives.reserved_of_guards (h : pa.Gives mac (some ip) pa') (hg : pa.Guards owner ip) (hne : mac ≠ owner) :
    pa.reservations.lookup mac = some ip := by
  cases h with
  | reserved h => exact h
  | leased hl hparse => exact absurd (hg.leased _ _ hl hparse) hne
  | requested hu => exact absurd (reserved_of_usable hu hg.reserved).symm hne
  | scanned _ hu => exact absurd (reserved_of_usable hu hg.reserved).symm hne

/-- The leases an allocator starts with are stored ones that are active and not expired. -/
theorem leases_of_start {pool : NetPool} {rs : List Reservation} {ls : List Lease} {now : ℕ} {l : Lease}
    (h : (newNetAllocator pool rs ls now).leases.lookup mac = some l) :
    l ∈ ls ∧ l.macAddress = mac ∧ l.status = .active ∧ l.isExpired now = false := by
  revert h
  rw [newNetAllocator]
  refine List.foldlRecOn ls (addLease now) (motive := fun pa => pa.leases.lookup mac = some l →
    l ∈ ls ∧ l.macAddress = mac ∧ l.status = .active ∧ l.isExpired now = false) ?_ ?_
  · intro h
    have hempty := (newNetAllocator_frame pool rs now).2.1
    rw [newNetAllocator, List.foldl_nil] at hempty
    rw [hempty, AList.lookup_empty] at h
    cases h
  · intro pa ih l' hl' h
    rw [addLease] at h
    split at h
    · next hactive =>
      split at h
      · dsimp only at h
        by_cases hmac : mac = l'.macAddress
        · subst hmac
          rw [AList.lookup_insert, Option.some.injEq] at h
          exact h ▸ ⟨hl', rfl, hactive⟩
        · rw [AList.lookup_insert_ne hmac] at h
          exact ih h
      · exact ih h
    · exact ih h

/-- The client is given the address, whatever it asks for with a DISCOVER, and with a REQUEST for it or for no address. -/
def Serves (pa : NetAllocator) (mac : Str) (ip : List UInt8) : Prop :=
  ∀ requestedIP, (pa.allocateForDiscover mac requestedIP).map Prod.fst = some (some ip) ∧
    (requestedIP = none ∨ requestedIP = some ip → (pa.allocateForRequest mac requestedIP).map Prod.fst = some (some ip))

/-- The client is not given the address. -/
def Denies (pa : NetAllocator) (mac : Str) (ip : List UInt8) : Prop :=
  ∀ requestedIP, (pa.allocateForDiscover mac requestedIP).map Prod.fst ≠ some (some ip) ∧
    (pa.allocateForRequest mac requestedIP).map Prod.fst ≠ some (some ip)

theorem serves_of_reserved (h : pa.reservations.lookup mac = some ip) (hfree : pa.unowned ip mac = true) : pa.Serves mac ip := by
  intro requestedIP
  constructor
  · simp [allocateForDiscover, h, Option.filter, hfree]
  · intro hreq
    simp [allocateForRequest, h, hreq, hfree]

theorem denies_of_guards (hg : pa.Guards owner ip) (hne : mac ≠ owner) (hres : pa.reservations.lookup mac ≠ some ip) :
    pa.Denies mac ip := by
  intro requestedIP
  constructor
  · intro h
    obtain ⟨⟨r, pa'⟩, ha, rfl⟩ := Option.map_eq_some_iff.1 h
    exact hres ((allocateForDiscover_gives ha).reserved_of_guards hg hne)
  · intro h
    obtain ⟨⟨r, pa'⟩, ha, rfl⟩ := Option.map_eq_some_iff.1 h
    exact hres ((allocateForRequest_gives ha).reserved_of_guards hg hne)

end NetAllocator

/-! ### Reservations are honoured -/

/-- The reservation is honoured: its address is a host of the pool, after every run its client is served with it unless it is
leased to another one, and nobody else is, unless the allocator has started with a lease of somebody else. -/
def Honoured (pool : NetPool) (rs : List Reservation) (r : Reservation) : Prop :=
  ∃ hw ip, parseMAC r.macAddress = some hw ∧ parseAddr r.ipAddress = some ip ∧ pool.IsHost ip ∧
    ∀ ls now es pa, run NetAllocator.step (newNetAllocator pool rs ls now) es = some pa →
      (∀ pkt : Packet, pkt.chAddr = hw → pa.unowned ip pkt.mac = true → pa.Serves pkt.mac ip) ∧
      ((∀ l ∈ ls, l.status = .active → l.isExpired now = false → parseAddr l.ipAddress = some ip →
          l.macAddress = hardwareString hw) →
        ∀ pkt : Packet, pkt.chAddr ≠ hw → pa.Denies pkt.mac ip)

/-- The address of the reservation is a host of the pool, it is reserved under the text a packet gives for the hardware
address, and it is reserved under no other such text. -/
def Fitting (pool : NetPool) (rs : List Reservation) (r : Reservation) : Prop :=
  ∃ hw ip, parseMAC r.macAddress = some hw ∧ parseAddr r.ipAddress = some ip ∧ pool.IsHost ip ∧
    (∃ r' ∈ rs, r'.macAddress = hardwareString hw ∧ parseAddr r'.ipAddress = some ip) ∧
    ∀ r' ∈ rs, ∀ hw', r'.macAddress = hardwareString hw' → parseAddr r'.ipAddress = some ip → hw' = hw

/-- The text of a packet's hardware address. -/
theorem Packet.mac_eq (pkt : Packet) : pkt.mac = hardwareString pkt.chAddr := rfl

section

open NetAllocator

variable {pool : NetPool} {rs : List Reservation} {r : Reservation}

theorem honoured_of_fitting (hrs : (rs.map Reservation.macAddress).Nodup) (h : Fitting pool rs r) : Honoured pool rs r := by
  obtain ⟨hw, ip, hmac, hip, hhost, ⟨own, hown, howner, hownip⟩, hall⟩ := h
  refine ⟨hw, ip, hmac, hip, hhost, fun ls now es pa hrun => ?_⟩
  have hres : ∀ mac, pa.reservations.lookup mac = some ip ↔
      ∃ r' ∈ rs, r'.macAddress = mac ∧ parseAddr r'.ipAddress = some ip := by
    intro mac
    have hkept : pa.reservations = (newNetAllocator pool rs ls now).reservations :=
      run_keeps (P := fun pa => pa.reservations = (newNetAllocator pool rs ls now).reservations)
        (fun _ _ _ h hs => (step_reservations hs).trans h) hrun rfl
    rw [hkept]
    exact lookup_reservations hrs ls now
  constructor
  · intro pkt hpkt hfree
    refine serves_of_reserved ((hres _).2 ⟨own, hown, ?_, hownip⟩) hfree
    rw [howner, Packet.mac_eq, hpkt]
  · intro hls pkt hpkt
    have hguards : pa.Guards (hardwareString hw) ip := by
      refine run_keeps (P := fun pa => pa.Guards (hardwareString hw) ip) (fun _ _ _ h hs => step_guards h hs) hrun ?_
      refine ⟨(lookup_reservations hrs ls now).2 ⟨own, hown, howner, hownip⟩, fun mac l hl hparse => ?_⟩
      obtain ⟨hmem, rfl, hactive, hexpired⟩ := leases_of_start hl
      exact hls l hmem hactive hexpired hparse
    refine denies_of_guards hguards (fun heq => hpkt (hardwareString_inj heq)) fun hlookup => ?_
    obtain ⟨r', hr', hmac', hip'⟩ := (hres _).1 hlookup
    exact hpkt (hall r' hr' pkt.chAddr hmac' hip')

theorem fitting_of_honoured (hrs : (rs.map Reservation.macAddress).Nodup) (hr : r ∈ rs) (h : Honoured pool rs r) :
    Fitting pool rs r := by
  obtain ⟨hw, ip, hmac, hip, hhost, hruns⟩ := h
  obtain ⟨-, hleases, hips⟩ := newNetAllocator_frame pool rs 0
  have hres (mac : Str) : (newNetAllocator pool rs [] 0).reservations.lookup mac = some ip ↔
      ∃ r ∈ rs, r.macAddress = mac ∧ parseAddr r.ipAddress = some ip := lookup_reservations hrs [] 0
  have hfree (mac : Str) : (newNetAllocator pool rs [] 0).unowned ip mac = true := by
    rw [unowned, hips, AList.lookup_empty]
  obtain ⟨hserves, hdenies⟩ := hruns [] 0 [] _ (run_nil _)
  refine ⟨hw, ip, hmac, hip, hhost, ?_, fun r' hr' hw' hmac' hip' => ?_⟩
  · obtain ⟨⟨_, pa'⟩, ha, rfl⟩ := Option.map_eq_some_iff.1
      (hserves { chAddr := hw, options := [] } rfl (hfree _) none).1
    cases allocateForDiscover_gives ha with
    | reserved h => exact (hres _).1 h
    | leased hl _ =>
      rw [hleases, AList.lookup_empty] at hl
      cases hl
    | requested hu => exact ⟨r, hr, reserved_of_usable hu ((hres _).2 ⟨r, hr, rfl, hip⟩), hip⟩
    | scanned _ hu => exact ⟨r, hr, reserved_of_usable hu ((hres _).2 ⟨r, hr, rfl, hip⟩), hip⟩
  · by_contra hne
    exact (hdenies (by simp) { chAddr := hw', options := [] } hne none).1
      (serves_of_reserved ((hres _).2 ⟨r', hr', hmac', hip'⟩) (hfree _) none).1

/-- In an IPv4 pool an address has one text, so that it is the reservation's own text of the hardware address that counts. -/
theorem fitting_iff_text (hips : (rs.map Reservation.ipAddress).Nodup) (hr : r ∈ rs) (hfour : pool.subnet.addr.length = 4) :
    Fitting pool rs r ↔ ∃ hw ip, parseMAC r.macAddress = some hw ∧ parseAddr r.ipAddress = some ip ∧ pool.IsHost ip ∧
      r.macAddress = hardwareString hw := by
  have hsame : ∀ {ip : List UInt8}, pool.IsHost ip → parseAddr r.ipAddress = some ip → ∀ r' ∈ rs,
      parseAddr r'.ipAddress = some ip → r' = r := by
    intro ip hhost hip r' hr' hip'
    have hlen : ip.length = 4 := (Net.length_of_contains hhost.inside).trans hfour
    exact List.inj_on_of_nodup_map hips hr' hr ((dotted_of_parseAddr hip' hlen).trans (dotted_of_parseAddr hip hlen).symm)
  constructor
  · rintro ⟨hw, ip, hmac, hip, hhost, ⟨own, hown, howner, hownip⟩, -⟩
    exact ⟨hw, ip, hmac, hip, hhost, hsame hhost hip own hown hownip ▸ howner⟩
  · rintro ⟨hw, ip, hmac, hip, hhost, howner⟩
    refine ⟨hw, ip, hmac, hip, hhost, ⟨r, hr, howner, hip⟩, fun r' hr' hw' howner' hip' => ?_⟩
    rw [hsame hhost hip r' hr' hip', howner] at howner'
    exact (hardwareString_inj howner').symm

/-- The texts of the stored reservations of a pool are different. -/
theorem Tables.nodup_listReservations {t : Tables} (h : t.Sound) (poolID : ℤ) :
    ((t.listReservations poolID).map Reservation.macAddress).Nodup ∧
    ((t.listReservations poolID).map Reservation.ipAddress).Nodup := by
  have hpool : (t.reservations.filter (fun r => r.poolID == poolID)).Pairwise (fun r r' =>
      r.macAddress ≠ r'.macAddress ∧ r.ipAddress ≠ r'.ipAddress) := by
    refine (h.unique.filter _).imp_of_mem fun {r r'} hr hr' hclash => ?_
    have hid : r.poolID = poolID := by simpa using List.of_mem_filter hr
    have hid' : r'.poolID = poolID := by simpa using List.of_mem_filter hr'
    simpa [clash, hid, hid'] using hclash
  rw [listReservations, List.map_map, List.map_map]
  exact ⟨List.pairwise_map.2 (hpool.imp And.left), List.pairwise_map.2 (hpool.imp And.right)⟩

theorem Tables.run_sound {quote : Str → Str} {es : List Change} {t : Tables}
    (hrun : run (Tables.step quote) {} es = some t) : t.Sound :=
  run_keeps (fun _ _ _ h hs => Tables.step_sound h hs) hrun ⟨by simp, List.Pairwise.nil⟩

end

def quoteText (s : Str) : Str := '"' :: s ++ ['"']

/-- The printer of the home network, and the same one as an administrator may type it. -/
def printer : Reservation where
  macAddress := "02:00:5e:10:00:0a".toList
  ipAddress := "192.168.1.30".toList

def typedPrinter : Reservation := { printer with macAddress := "02-00-5E-10-00-0A".toList }

def posted (r : Reservation) : List Change :=
  [.createPool 1, .postReservation (some 1) (.ok { toReservation := r, hostname := "printer".toList }) true]

theorem run_posted (r : Reservation) (h : validateMAC quoteText r.macAddress = none) :
    ∃ t, run (Tables.step quoteText) {} (posted r) = some t ∧ t.listReservations 1 = [r] := by
  refine ⟨_, rfl, ?_⟩
  simp [postReservation, h, Tables.createReservation, Tables.listReservations]

end Velora.Dhcp
