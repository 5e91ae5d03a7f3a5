import Velora.Dhcp.Pool
import Velora.Lib.Keyed

/-!
# Leases and the allocator's record

The allocator keeps a lease of an address for one client at most. A lease that the server acknowledges need not be in this
record, and a record may go while the lease it stands for lasts. In a run in which neither happens no two clients hold the
same address (`leases_exclusive`); two clients that ask for an address the server has not offered both get it
(`both_hold`).
-/

namespace Velora.Dhcp

open Velora.Lib Velora.Lib.Text Velora.Lib.Ip

namespace PoolAllocator

/-! ### The record -/

/-- The address is kept for the client: it is leased to it, or it is reserved for it and not leased. -/
def Keeps (pa : PoolAllocator) (mac : Str) (ip : List UInt8) : Prop :=
  pa.ips.lookup ip = some mac ∨ pa.ips.lookup ip = none ∧ pa.reservations.lookup mac = some ip

/-- The maps belong together: the address of a lease is leased to its client, and each address is reserved for one
client at most. -/
structure Inverse (pa : PoolAllocator) : Prop where
  leases : ∀ mac l ip, pa.leases.lookup mac = some l → parseAddr l.ipAddress = some ip → pa.ips.lookup ip = some mac
  reservations : ∀ mac mac' ip, pa.reservations.lookup mac = some ip → pa.reservations.lookup mac' = some ip → mac = mac'

theorem Keeps.unique {pa : PoolAllocator} (h : pa.Inverse) {mac mac' : Str} {ip : List UInt8} (hm : pa.Keeps mac ip)
    (hm' : pa.Keeps mac' ip) : mac = mac' := by
  rcases hm with hm | ⟨hnone, hr⟩
  · rcases hm' with hm' | ⟨hnone, -⟩
    · exact Option.some.inj (hm.symm.trans hm')
    · cases hm.symm.trans hnone
  · rcases hm' with hm' | ⟨-, hr'⟩
    · cases hnone.symm.trans hm'
    · exact h.reservations mac mac' ip hr hr'

/-- What an allocation leaves as it was. -/
structure Extends (pa pa' : PoolAllocator) : Prop where
  inverse : pa'.Inverse
  pool : pa'.pool = pa.pool
  reservations : pa'.reservations = pa.reservations
  keeps : ∀ mac ip, pa.Keeps mac ip → pa'.Keeps mac ip

theorem Extends.refl {pa : PoolAllocator} (h : pa.Inverse) : pa.Extends pa := ⟨h, rfl, rfl, fun _ _ h => h⟩

/-! ### Usable addresses -/

theorem unowned_iff {pa : PoolAllocator} {ip : List UInt8} {mac : Str} :
    pa.unowned ip mac = true ↔ pa.ips.lookup ip = none ∨ pa.ips.lookup ip = some mac := by
  rw [unowned]
  cases pa.ips.lookup ip with
  | none => simp
  | some owner => simp

theorem usable_iff {pa : PoolAllocator} {ip : List UInt8} {mac : Str} :
    pa.usable ip mac = true ↔ (pa.ips.lookup ip = none ∨ pa.ips.lookup ip = some mac) ∧
      ∀ mac', pa.reservations.lookup mac' = some ip → mac' = mac := by
  rw [usable, Bool.and_eq_true, unowned_iff, List.all_eq_true]
  refine and_congr_right fun _ => ⟨fun h mac' hr => ?_, fun h r hr => ?_⟩
  · have := h ⟨mac', ip⟩ (AList.mem_lookup_iff.1 hr)
    simpa using this
  · have := h r.1
    by_cases hip : r.2 = ip
    · have := this (AList.mem_lookup_iff.2 (hip ▸ hr))
      simp [this]
    · simp [hip]

/-- Nobody else has a usable address. -/
theorem Keeps.of_usable {pa : PoolAllocator} {ip : List UInt8} {mac mac' : Str} (h : pa.Keeps mac' ip)
    (hu : pa.usable ip mac = true) : mac' = mac := by
  obtain ⟨howner, hres⟩ := usable_iff.1 hu
  rcases h with h | ⟨-, h⟩
  · rw [h] at howner
    rcases howner with h | h
    · cases h
    · exact Option.some.inj h
  · exact hres mac' h

/-! ### Allocation -/

theorem search_usable {pa : PoolAllocator} {mac : Str} {stop ip : List UInt8} {fuel : ℕ} {found : List UInt8}
    (h : pa.search mac stop fuel ip = some (some found)) :
    pa.usable found mac = true ∧ found.length = ip.length := by
  induction fuel generalizing ip with
  | zero => cases h
  | succ fuel ih =>
    rw [search] at h
    split at h
    · cases h
    split at h
    · have := ih h
      rwa [length_nextIP] at this
    · rename_i hne
      cases h
      simp only [Bool.or_eq_true, Bool.not_eq_true', not_or, Bool.not_eq_false] at hne
      exact ⟨hne.1.2, rfl⟩

theorem parseAddr_addrString_four {ip : List UInt8} (h : ip.length = 4) : parseAddr (addrString ip) = some ip := by
  rw [addrString, if_pos h]
  exact parseAddr_dotted h

/-- A usable address is entered in both maps. -/
theorem extends_insert {pa : PoolAllocator} (h : pa.Inverse) {mac : Str} {ip : List UInt8} {l : Lease}
    (hu : pa.usable ip mac = true) (hl : parseAddr l.ipAddress = some ip) :
    pa.Extends { pa with ips := pa.ips.insert ip mac, leases := pa.leases.insert mac l } := by
  refine ⟨⟨fun mac' l' ip' hl' hip' => ?_, h.reservations⟩, rfl, rfl, fun mac' ip' hk => ?_⟩
  · dsimp only at hl' ⊢
    by_cases hmac : mac' = mac
    · subst hmac
      rw [AList.lookup_insert, Option.some.injEq] at hl'
      subst hl'
      cases hl.symm.trans hip'
      rw [AList.lookup_insert]
    · rw [AList.lookup_insert_ne hmac] at hl'
      have hown := h.leases mac' l' ip' hl' hip'
      have hne : ip' ≠ ip := fun heq => hmac ((Keeps.of_usable (.inl (heq ▸ hown)) hu))
      rw [AList.lookup_insert_ne hne]
      exact hown
  · by_cases hip : ip' = ip
    · subst hip
      cases hk.of_usable hu
      exact .inl (AList.lookup_insert _)
    · rw [Keeps]
      dsimp only
      rw [AList.lookup_insert_ne hip]
      exact hk

theorem allocateFromRange_extends {pa pa' : PoolAllocator} (h : pa.Inverse) {mac : Str} {r : Option (List UInt8)}
    (ha : pa.allocateFromRange mac = some (r, pa')) :
    pa.Extends pa' ∧ ∀ ip, r = some ip → pa'.ips.lookup ip = some mac := by
  rw [allocateFromRange] at ha
  split at ha
  · rename_i ip hip
    obtain ⟨l, hl, hparse⟩ := Option.bind_eq_some_iff.1 hip
    cases ha
    refine ⟨.refl h, fun ip' hr => ?_⟩
    cases hr
    exact h.leases mac l ip hl hparse
  · obtain ⟨found, hsearch, hr⟩ := Option.map_eq_some_iff.1 ha
    cases found with
    | none =>
      cases hr
      exact ⟨.refl h, by simp⟩
    | some ip =>
      cases hr
      obtain ⟨hu, hlen⟩ := search_usable hsearch
      have hfour : ip.length = 4 := hlen.trans ((length_nextIP _).trans (length_networkAddr _))
      refine ⟨extends_insert h hu (parseAddr_addrString_four hfour), fun ip' hr => ?_⟩
      cases hr
      exact AList.lookup_insert _

theorem allocateForDiscover_extends {pa pa' : PoolAllocator} (h : pa.Inverse) {mac : Str} {requestedIP r : Option (List UInt8)}
    (ha : pa.allocateForDiscover mac requestedIP = some (r, pa')) : pa.Extends pa' := by
  rw [allocateForDiscover] at ha
  split at ha
  · cases ha
    exact .refl h
  split at ha
  · cases ha
    exact .refl h
  · exact (allocateFromRange_extends h ha).1

/-- What a client without a reservation asks for and may have is leased to it already. -/
def offered (pa : PoolAllocator) (mac : Str) (requestedIP : Option (List UInt8)) : Bool :=
  (pa.reservations.lookup mac).isSome ||
    requestedIP.all (fun ip => !pa.requestable ip mac || pa.ips.lookup ip == some mac)

theorem allocateForRequest_extends {pa pa' : PoolAllocator} (h : pa.Inverse) {mac : Str} {requestedIP r : Option (List UInt8)}
    (ha : pa.allocateForRequest mac requestedIP = some (r, pa')) :
    pa.Extends pa' ∧ (pa.offered mac requestedIP = true → ∀ ip, r = some ip → pa'.Keeps mac ip) := by
  unfold allocateForRequest at ha
  rw [offered]
  cases hres : pa.reservations.lookup mac with
  | some reserved =>
    rw [hres] at ha
    dsimp only at ha
    split at ha
    · rename_i hfree
      cases ha
      refine ⟨.refl h, fun _ ip hr => ?_⟩
      cases hr
      rcases unowned_iff.1 hfree.2 with hnone | hown
      · exact .inr ⟨hnone, hres⟩
      · exact .inl hown
    · cases ha
      exact ⟨.refl h, by simp⟩
  | none =>
    rw [hres] at ha
    cases requestedIP with
    | some ip =>
      dsimp only at ha
      split at ha
      · rename_i hreq
        cases ha
        refine ⟨.refl h, fun hoff ip' hr => ?_⟩
        cases hr
        exact .inl (by simpa [hreq] using hoff)
      · cases ha
        exact ⟨.refl h, by simp⟩
    | none =>
      obtain ⟨hext, hown⟩ := allocateFromRange_extends h ha
      exact ⟨hext, fun _ ip hr => .inl (hown ip hr)⟩

/-! ### Taking leases out -/

theorem drop_lookup_ne {pa : PoolAllocator} {mac mac' : Str} (l : Lease) (h : mac' ≠ mac) :
    (pa.drop mac l).leases.lookup mac' = pa.leases.lookup mac' := AList.lookup_erase_ne h

theorem drop_ips {pa : PoolAllocator} {mac : Str} {l : Lease} {ip : List UInt8} (h : parseAddr l.ipAddress ≠ some ip) :
    (pa.drop mac l).ips.lookup ip = pa.ips.lookup ip := by
  rw [drop]
  dsimp only
  split
  · rename_i ip' hip'
    exact AList.lookup_erase_ne fun heq => h (heq ▸ hip')
  · rfl

theorem drop_inverse {pa : PoolAllocator} (h : pa.Inverse) {mac : Str} {l : Lease} (hl : pa.leases.lookup mac = some l) :
    (pa.drop mac l).Inverse := by
  refine ⟨fun mac' l' ip' hl' hip' => ?_, h.reservations⟩
  by_cases hmac : mac' = mac
  · subst hmac
    rw [drop] at hl'
    dsimp only at hl'
    rw [AList.lookup_erase] at hl'
    cases hl'
  · rw [drop_lookup_ne l hmac] at hl'
    have hown := h.leases mac' l' ip' hl' hip'
    rw [drop_ips]
    · exact hown
    · -- the addresses of two leases are different
      intro hip
      exact hmac (Option.some.inj (hown.symm.trans (h.leases mac l ip' hl hip)))

/-- The lease is all that keeps its address for the client. -/
def sole (pa : PoolAllocator) (mac : Str) (l : Lease) (ip : List UInt8) : Bool :=
  parseAddr l.ipAddress == some ip && pa.reservations.lookup mac != some ip

theorem drop_keeps {pa : PoolAllocator} (h : pa.Inverse) {mac mac' : Str} {l : Lease} {ip : List UInt8}
    (hl : pa.leases.lookup mac = some l) (hk : pa.Keeps mac' ip) :
    (pa.drop mac l).Keeps mac' ip ∨ mac' = mac ∧ pa.sole mac l ip = true := by
  by_cases hip : parseAddr l.ipAddress = some ip
  · have hown := h.leases mac l ip hl hip
    cases hk.unique h (.inl hown)
    by_cases hres : pa.reservations.lookup mac = some ip
    · refine .inl (.inr ⟨?_, hres⟩)
      rw [drop]
      dsimp only
      rw [hip]
      exact AList.lookup_erase _ _
    · exact .inr ⟨rfl, by simp [sole, hip, hres]⟩
  · left
    rw [Keeps, drop_ips hip]
    exact hk

theorem foldl_drop {now : ℕ} : ∀ (es : List (Sigma fun _ : Str => Lease)) {pa : PoolAllocator}, es.NodupKeys →
    (∀ e ∈ es, pa.leases.lookup e.1 = some e.2) → pa.Inverse →
    let pa' := es.foldl (fun pa e => if e.2.isExpired now then pa.drop e.1 e.2 else pa) pa
    pa'.Inverse ∧ ∀ mac ip, pa.Keeps mac ip →
      pa'.Keeps mac ip ∨ ∃ l, ⟨mac, l⟩ ∈ es ∧ l.isExpired now = true ∧ pa.sole mac l ip = true
  | [], pa, _, _, h => ⟨h, fun _ _ hk => .inl hk⟩
  | e :: es, pa, hkeys, hes, h => by
    obtain ⟨hnot, hkeys⟩ := List.nodupKeys_cons.1 hkeys
    have hl := hes e List.mem_cons_self
    rw [List.foldl_cons]
    split
    · rename_i hexpired
      have hrest : ∀ e' ∈ es, (pa.drop e.1 e.2).leases.lookup e'.1 = some e'.2 := by
        intro e' he'
        have hne : e'.1 ≠ e.1 := by
          intro heq
          rw [← heq] at hnot
          exact hnot (List.mem_keys_of_mem he')
        rw [drop_lookup_ne _ hne]
        exact hes e' (List.mem_cons_of_mem e he')
      obtain ⟨hinv, hkeeps⟩ := foldl_drop es hkeys hrest (drop_inverse h hl)
      refine ⟨hinv, fun mac ip hk => ?_⟩
      rcases drop_keeps h hl hk with hk | ⟨rfl, hsole⟩
      · rcases hkeeps mac ip hk with hk | ⟨l, hmem, hl⟩
        · exact .inl hk
        · exact .inr ⟨l, List.mem_cons_of_mem e hmem, hl⟩
      · exact .inr ⟨e.2, List.mem_cons_self, hexpired, hsole⟩
    · obtain ⟨hinv, hkeeps⟩ := foldl_drop es hkeys (fun e' he' => hes e' (List.mem_cons_of_mem e he')) h
      refine ⟨hinv, fun mac ip hk => ?_⟩
      rcases hkeeps mac ip hk with hk | ⟨l, hmem, hl⟩
      · exact .inl hk
      · exact .inr ⟨l, List.mem_cons_of_mem e hmem, hl⟩

theorem expireLeases_keeps {pa : PoolAllocator} (h : pa.Inverse) (now : ℕ) :
    (pa.expireLeases now).Inverse ∧ ∀ mac ip, pa.Keeps mac ip → (pa.expireLeases now).Keeps mac ip ∨
      ∃ l, ⟨mac, l⟩ ∈ pa.leases.entries ∧ l.isExpired now = true ∧ pa.sole mac l ip = true :=
  foldl_drop pa.leases.entries pa.leases.nodupKeys (fun _ he => AList.mem_lookup_iff.2 he) h

theorem release_keeps {pa : PoolAllocator} (h : pa.Inverse) (mac : Str) :
    (pa.release mac).Inverse ∧ ∀ mac' ip, pa.Keeps mac' ip → (pa.release mac).Keeps mac' ip ∨
      mac' = mac ∧ ∃ l, pa.leases.lookup mac = some l ∧ pa.sole mac l ip = true := by
  rw [release]
  cases hl : pa.leases.lookup mac with
  | none => exact ⟨h, fun _ _ hk => .inl hk⟩
  | some l =>
    refine ⟨drop_inverse h hl, fun mac' ip hk => ?_⟩
    rcases drop_keeps h hl hk with hk | ⟨hmac, hsole⟩
    · exact .inl hk
    · exact .inr ⟨hmac, l, rfl, hsole⟩

/-! ### The allocator at the start -/

theorem foldl_addReservation (pool : Pool) (rs : List Reservation) :
    let pa := rs.foldl addReservation { pool }
    pa.leases = ∅ ∧ pa.ips = ∅ ∧ ∀ mac ip, pa.reservations.lookup mac = some ip →
      ∃ r ∈ rs, r.macAddress = mac ∧ parseAddr r.ipAddress = some ip := by
  refine List.foldlRecOn rs addReservation (motive := fun pa => pa.leases = ∅ ∧ pa.ips = ∅ ∧ ∀ mac ip,
    pa.reservations.lookup mac = some ip → ∃ r ∈ rs, r.macAddress = mac ∧ parseAddr r.ipAddress = some ip) ?_ ?_
  · exact ⟨rfl, rfl, fun mac ip h => by simp at h⟩
  · rintro pa ⟨hl, hi, h⟩ r hr
    rw [addReservation]
    split
    · rename_i ip hip
      refine ⟨hl, hi, fun mac ip' hres => ?_⟩
      dsimp only at hres
      by_cases hmac : mac = r.macAddress
      · subst hmac
        rw [AList.lookup_insert, Option.some.injEq] at hres
        exact ⟨r, hr, rfl, hres ▸ hip⟩
      · rw [AList.lookup_insert_ne hmac] at hres
        exact h mac ip' hres
    · exact ⟨hl, hi, h⟩

/-- The leases that are entered when the allocator starts. -/
def Entered (now : ℕ) (l : Lease) (ip : List UInt8) : Prop :=
  l.status = .active ∧ l.isExpired now = false ∧ parseAddr l.ipAddress = some ip

theorem addLease_inverse {pa : PoolAllocator} (h : pa.Inverse) (now : ℕ) {l : Lease}
    (hfree : ∀ ip, parseAddr l.ipAddress = some ip → pa.ips.lookup ip = none) : (addLease now pa l).Inverse := by
  rw [addLease]
  split
  · split
    · rename_i ip hip
      have hnone := hfree ip hip
      refine ⟨fun mac l' ip' hl' hip' => ?_, h.reservations⟩
      dsimp only at hl' ⊢
      by_cases hmac : mac = l.macAddress
      · subst hmac
        rw [AList.lookup_insert, Option.some.injEq] at hl'
        subst hl'
        cases hip.symm.trans hip'
        exact AList.lookup_insert _
      · rw [AList.lookup_insert_ne hmac] at hl'
        have hown := h.leases mac l' ip' hl' hip'
        have hne : ip' ≠ ip := by
          rintro rfl
          cases hnone.symm.trans hown
        rw [AList.lookup_insert_ne hne]
        exact hown
    · exact h
  · exact h

theorem addLease_ips {pa : PoolAllocator} {now : ℕ} {l : Lease} {ip : List UInt8} (h : parseAddr l.ipAddress ≠ some ip) :
    (addLease now pa l).ips.lookup ip = pa.ips.lookup ip := by
  rw [addLease]
  split
  · split
    · rename_i ip' hip'
      exact AList.lookup_insert_ne fun heq => h (heq ▸ hip')
    · rfl
  · rfl

theorem addLease_entered {pa : PoolAllocator} {now : ℕ} {l : Lease} {ip : List UInt8} (h : Entered now l ip) :
    (addLease now pa l).ips.lookup ip = some l.macAddress := by
  rw [addLease, if_pos ⟨h.1, h.2.1⟩, h.2.2]
  exact AList.lookup_insert _

/-- Leases of different addresses, none of which is leased, are entered one after the other. -/
theorem foldl_addLease {now : ℕ} : ∀ (ls : List Lease) {pa : PoolAllocator},
    ls.Pairwise (fun l l' => ∀ ip, parseAddr l.ipAddress = some ip → parseAddr l'.ipAddress ≠ some ip) → pa.Inverse →
    (∀ l ∈ ls, ∀ ip, parseAddr l.ipAddress = some ip → pa.ips.lookup ip = none) →
    let pa' := ls.foldl (addLease now) pa
    pa'.Inverse ∧ (∀ mac ip, pa.ips.lookup ip = some mac → pa'.ips.lookup ip = some mac) ∧
      ∀ l ∈ ls, ∀ ip, Entered now l ip → pa'.ips.lookup ip = some l.macAddress
  | [], _, _, h, _ => ⟨h, fun _ _ h => h, by simp⟩
  | l :: ls, pa, hd, h, hfree => by
    obtain ⟨hhead, hd⟩ := List.pairwise_cons.1 hd
    rw [List.foldl_cons]
    have hfree' : ∀ l' ∈ ls, ∀ ip, parseAddr l'.ipAddress = some ip → (addLease now pa l).ips.lookup ip = none := by
      intro l' hl' ip hip
      rw [addLease_ips fun hl => hhead l' hl' ip hl hip]
      exact hfree l' (List.mem_cons_of_mem l hl') ip hip
    obtain ⟨hinv, hkeeps, hentered⟩ :=
      foldl_addLease ls hd (addLease_inverse h now (hfree l List.mem_cons_self)) hfree'
    refine ⟨hinv, fun mac ip hip => hkeeps mac ip ?_, fun l' hl' ip hl => ?_⟩
    · rw [addLease_ips]
      · exact hip
      · intro hl
        cases (hfree l List.mem_cons_self ip hl).symm.trans hip
    · rcases List.mem_cons.1 hl' with rfl | hl'
      · exact hkeeps _ ip (addLease_entered hl)
      · exact hentered l' hl' ip hl

end PoolAllocator

namespace Server

/-! ### The server keeps to the record -/

/-- All that is held is in the record. -/
structure Recorded (s : Server) : Prop where
  inverse : s.allocator.Inverse
  holds : ∀ mac ip, s.holds mac ip = true → s.allocator.Keeps mac ip

theorem Recorded.exclusive {s : Server} (h : s.Recorded) : s.Exclusive :=
  fun m m' ip hm hm' => (h.holds m ip hm).unique h.inverse (h.holds m' ip hm')

theorem holds_iff {s : Server} {mac : Str} {ip : List UInt8} :
    s.holds mac ip = true ↔ ∃ e ∈ s.acked, e.mac = mac ∧ e.ip = ip ∧ s.now ≤ e.expiresAt := by
  simp [holds, and_assoc]

/-- A lease in memory is all that keeps an address the client holds. -/
def binding (s : Server) (mac : Str) (l : Lease) : Bool :=
  (parseAddr l.ipAddress).any (fun ip => s.allocator.sole mac l ip && s.holds mac ip)

theorem binding_of {s : Server} {mac : Str} {l : Lease} {ip : List UInt8} (hsole : s.allocator.sole mac l ip = true)
    (hheld : s.holds mac ip = true) : parseAddr l.ipAddress = some ip ∧ s.binding mac l = true := by
  have hip : parseAddr l.ipAddress = some ip := by
    rw [PoolAllocator.sole, Bool.and_eq_true, beq_iff_eq] at hsole
    exact hsole.1
  rw [binding, hip, Option.any_some, hsole, hheld]
  exact ⟨rfl, rfl⟩

/-- An address that is acknowledged to a client without a reservation on its request is leased to it already. -/
def requestsOffered (s : Server) (pkt : Packet) (x : Outside) : Bool :=
  s.foreign pkt || x.save != .done || s.allocator.offered pkt.mac (requested pkt)

/-- When the lease of an address is given back, the lease in memory is on this address, or nothing depends on it. -/
def releasesOwn (s : Server) (mac : Str) (ip : List UInt8) (x : Outside) : Bool :=
  (s.getLease mac x).all (fun row =>
    row.status != .active || row.ipAddress != ipString ip || x.save != .done ||
      (s.allocator.leases.lookup mac).all (fun l => parseAddr l.ipAddress == some ip || !s.binding mac l))

/-- No lease in memory that something depends on has expired. -/
def expiresFree (s : Server) : Bool :=
  s.allocator.leases.entries.all (fun e => !e.2.isExpired s.now || !s.binding e.1 e.2)

/-- The message keeps what is held in the record. -/
def handlesRecorded (s : Server) (pkt : Packet) (x : Outside) : Bool :=
  pkt.opCode != 1 || !equalIP pkt.giAddr [0, 0, 0, 0] ||
    match pkt.messageType with
    | 3 => s.requestsOffered pkt x
    | 7 => s.foreign pkt || s.releasesOwn pkt.mac pkt.ciAddr x
    | 4 => pkt.requestedIP.all (fun ip => s.releasesOwn pkt.mac ip x)
    | _ => true

/-- The step keeps what is held in the record. -/
def recorded (s : Server) : Event → Bool
  | .message now pkt x => handlesRecorded { s with now } pkt x
  | .expireLeases now => expiresFree { s with now }
  | .expireRows _ => true

theorem Recorded.extend {s : Server} (h : s.Recorded) {pa : PoolAllocator} (he : s.allocator.Extends pa) (rows : List Lease) :
    Recorded { s with allocator := pa, rows } :=
  ⟨he.inverse, fun mac ip hh => he.keeps mac ip (h.holds mac ip hh)⟩

theorem handleDiscover_recorded {s s' : Server} {pkt : Packet} (h : s.Recorded) (hs : s.handleDiscover pkt = some s') :
    s'.Recorded := by
  rw [handleDiscover] at hs
  split at hs
  · cases hs
  · rename_i pa ha
    cases hs
    exact h.extend (PoolAllocator.allocateForDiscover_extends h.inverse ha) s.rows
  · rename_i ip pa ha
    split at hs
    · cases hs
      exact h.extend (PoolAllocator.allocateForDiscover_extends h.inverse ha) s.rows
    · cases hs

theorem handleRequest_recorded {s s' : Server} {pkt : Packet} {x : Outside} (h : s.Recorded)
    (hok : s.requestsOffered pkt x = true) (hs : s.handleRequest pkt x = some s') : s'.Recorded := by
  rw [handleRequest] at hs
  rw [requestsOffered] at hok
  split at hs
  · cases hs
    exact h
  rename_i hforeign
  split at hs
  · cases hs
  · rename_i pa ha
    cases hs
    exact h.extend (PoolAllocator.allocateForRequest_extends h.inverse ha).1 s.rows
  · rename_i ip pa ha
    obtain ⟨hext, hkeeps⟩ := PoolAllocator.allocateForRequest_extends h.inverse ha
    dsimp only at hs
    split at hs
    · cases hs
      exact h.extend hext s.rows
    · cases hs
      exact h.extend hext _
    · rename_i hsave
      split at hs
      · cases hs
        refine ⟨hext.inverse, fun mac ip' hh => ?_⟩
        obtain ⟨e, he, hmac, hip, hle⟩ := holds_iff.1 hh
        rcases List.mem_cons.1 he with rfl | he
        · -- the lease that is acknowledged
          dsimp only at hmac hip
          subst hmac hip
          exact hkeeps (by simpa [hforeign, hsave] using hok) ip rfl
        · exact hext.keeps mac ip' (h.holds mac ip' (holds_iff.2 ⟨e, he, hmac, hip, hle⟩))
      · cases hs

theorem releaseLease_recorded {s : Server} {mac : Str} {ip : List UInt8} {x : Outside} (h : s.Recorded)
    (hok : s.releasesOwn mac ip x = true) : (s.releaseLease mac ip x).Recorded := by
  rw [releaseLease]
  rw [releasesOwn] at hok
  split
  · exact h
  rename_i row hrow
  split
  · exact h
  rename_i hactive
  push Not at hactive
  dsimp only
  split
  · exact h
  · exact ⟨h.inverse, h.holds⟩
  · rename_i hsave
    obtain ⟨hinv, hkeeps⟩ := PoolAllocator.release_keeps h.inverse mac
    refine ⟨hinv, fun mac' ip' hh => ?_⟩
    obtain ⟨e, he, rfl, rfl, hle⟩ := holds_iff.1 hh
    obtain ⟨he, hne⟩ := List.mem_filter.1 he
    have hheld : s.holds e.mac e.ip = true := holds_iff.2 ⟨e, he, rfl, rfl, hle⟩
    rcases hkeeps e.mac e.ip (h.holds e.mac e.ip hheld) with hk | ⟨hmac, l, hl, hsole⟩
    · exact hk
    · -- the lease that goes is on the address that is given back, which is not held any more
      subst hmac
      obtain ⟨hparse, hbinding⟩ := binding_of hsole hheld
      rw [hrow, hl] at hok
      have hip : e.ip = ip := by simpa [hactive.1, hactive.2, hsave, hparse, hbinding] using hok
      simp [hip] at hne

theorem expireLeases_recorded {s : Server} (h : s.Recorded) (hok : s.expiresFree = true) :
    Recorded { s with allocator := s.allocator.expireLeases s.now } := by
  obtain ⟨hinv, hkeeps⟩ := PoolAllocator.expireLeases_keeps h.inverse s.now
  refine ⟨hinv, fun mac ip hh => ?_⟩
  rcases hkeeps mac ip (h.holds mac ip hh) with hk | ⟨l, hmem, hexpired, hsole⟩
  · exact hk
  · have hfree := List.all_eq_true.1 hok ⟨mac, l⟩ hmem
    rw [(binding_of hsole hh).2, hexpired] at hfree
    cases hfree

/-- What time does to the leases. -/
theorem Recorded.later {s : Server} (h : s.Recorded) {now : ℕ} (hle : s.now ≤ now) : Recorded { s with now } := by
  refine ⟨h.inverse, fun mac ip hh => h.holds mac ip ?_⟩
  obtain ⟨e, he, hmac, hip, hexp⟩ := holds_iff.1 hh
  exact holds_iff.2 ⟨e, he, hmac, hip, hle.trans hexp⟩

theorem handle_recorded {s s' : Server} {pkt : Packet} {x : Outside} (h : s.Recorded)
    (hok : s.handlesRecorded pkt x = true) (hs : s.handle pkt x = some s') : s'.Recorded := by
  rw [handle] at hs
  rw [handlesRecorded] at hok
  split at hs
  · cases hs
    exact h
  rename_i hop
  split at hs
  · cases hs
    exact h
  rename_i hgi
  push Not at hop
  rw [Bool.not_eq_true, Bool.not_eq_false'] at hgi
  rw [hop, hgi, bne_self_eq_false, Bool.not_true, Bool.false_or, Bool.false_or] at hok
  split at hs
  · exact handleDiscover_recorded h hs
  · rename_i hmsg
    rw [hmsg] at hok
    exact handleRequest_recorded h hok hs
  · rename_i hmsg
    rw [hmsg] at hok
    cases hs
    rw [handleRelease]
    split
    · exact h
    · rename_i hforeign
      exact releaseLease_recorded h (by simpa [hforeign] using hok)
  · rename_i hmsg
    rw [hmsg] at hok
    cases hs
    rw [handleDecline]
    split
    · exact h
    · rename_i ip hip
      exact releaseLease_recorded h (by simpa [hip] using hok)
  · cases hs
    exact h

/-- **A step** that keeps what is held in the record. -/
theorem step_recorded {s s' : Server} {e : Event} (h : s.Recorded) (hok : s.recorded e = true)
    (hs : s.step e = some s') : s'.Recorded := by
  rw [step] at hs
  split at hs
  · cases hs
  · rename_i hnow
    have h' := h.later (Nat.le_of_not_lt hnow)
    cases e with
    | message now pkt x => exact handle_recorded h' hok hs
    | expireLeases now =>
      cases hs
      exact expireLeases_recorded h' hok
    | expireRows now =>
      cases hs
      exact ⟨h'.inverse, h'.holds⟩

end Server

/-! ### Every run -/

theorem start_recorded {pool : Pool} {serverIP : List UInt8} {rs : List Reservation} {ls : List Lease} {now : ℕ}
    (hrs : (rs.filterMap (fun r => parseAddr r.ipAddress)).Nodup)
    (hls : (ls.filterMap (fun l => parseAddr l.ipAddress)).Nodup) : (start pool serverIP rs ls now).Recorded := by
  obtain ⟨hl, hi, hres⟩ := PoolAllocator.foldl_addReservation pool rs
  have hinv : (rs.foldl PoolAllocator.addReservation { pool }).Inverse := by
    refine ⟨fun mac l ip h => ?_, fun mac mac' ip h h' => ?_⟩
    · rw [hl] at h
      simp at h
    · obtain ⟨r, hr, rfl, hip⟩ := hres mac ip h
      obtain ⟨r', hr', rfl, hip'⟩ := hres mac' ip h'
      rw [Keyed.eq_of_nodup_filterMap hrs hr hr' hip hip']
  obtain ⟨hinv', -, hentered⟩ := @PoolAllocator.foldl_addLease now ls _
    ((List.pairwise_filterMap.1 hls).imp fun {l l'} h ip hip hip' => h ip hip ip hip' rfl) hinv
    (fun l _ ip _ => by rw [hi]; exact AList.lookup_empty ip)
  refine ⟨hinv', fun mac ip hh => ?_⟩
  obtain ⟨e, he, rfl, rfl, -⟩ := Server.holds_iff.1 hh
  obtain ⟨l, hmem, he⟩ := List.mem_filterMap.1 he
  split at he
  · rename_i hactive
    obtain ⟨ip, hip, rfl⟩ := Option.map_eq_some_iff.1 he
    exact .inl (hentered l hmem ip ⟨hactive.1, hactive.2, hip⟩)
  · cases he

/-- **Leases are exclusive** in every run that keeps what is held in the record. -/
theorem leases_exclusive {pool : Pool} {serverIP : List UInt8} {rs : List Reservation} {ls : List Lease} {now : ℕ}
    (hrs : (rs.filterMap (fun r => parseAddr r.ipAddress)).Nodup)
    (hls : (ls.filterMap (fun l => parseAddr l.ipAddress)).Nodup) {es : List Event} {s : Server}
    (hrun : run Server.step (start pool serverIP rs ls now) es = some s)
    (hok : Meets Server.step (fun s e => s.recorded e = true) (start pool serverIP rs ls now) es) : s.Exclusive :=
  (run_invariant (P := Server.Recorded) (fun _ _ _ hok h hs => Server.step_recorded h hok hs) hok hrun
    (start_recorded hrs hls)).exclusive

/-! ### A home network -/

def home : Pool where
  subnet := ⟨[192, 168, 1, 0], 24, rfl, by decide⟩
  gateway := [192, 168, 1, 1]
  leaseSeconds := 3600
  four := rfl

/-- The beginning of the year 2026. -/
def newYear : ℕ := 739616 * 86400 * second

def discover (client : UInt8) : Packet where
  chAddr := [2, 0, 0, 0, 0, client]
  options := [(53, [1])]

def request (client : UInt8) (ip : List UInt8) : Packet where
  chAddr := [2, 0, 0, 0, 0, client]
  options := [(53, [3]), (50, ip)]

def release (client : UInt8) (ip : List UInt8) : Packet where
  chAddr := [2, 0, 0, 0, 0, client]
  ciAddr := ip
  options := [(53, [7])]

/-- A stored lease that lasts a minute, and a reservation. -/
def homeServer : Server :=
  start home [192, 168, 1, 1] [⟨"02:00:00:00:00:03".toList, "192.168.1.30".toList⟩]
    [{ macAddress := "02:00:00:00:00:01".toList, ipAddress := "192.168.1.20".toList, expiresAt := newYear + 60 * second
       status := .active }] newYear

/-- The second client gets an address of the range and gives it back, the third one has its reserved address, the lease of
the first one expires, and the fourth one gets what the second one has had. -/
def homeDay : List Event :=
  [.message newYear (discover 2) {},
   .message newYear (request 2 [192, 168, 1, 2]) {},
   .message newYear (request 3 [192, 168, 1, 30]) {},
   .message (newYear + 40 * second) (release 2 [192, 168, 1, 2]) {},
   .expireLeases (newYear + 80 * second),
   .message (newYear + 80 * second) (discover 4) {},
   .message (newYear + 80 * second) (request 4 [192, 168, 1, 2]) {}]

theorem leases_exclusive_home : ∃ s, run Server.step homeServer homeDay = some s ∧
    s.holds "02:00:00:00:00:04".toList [192, 168, 1, 2] = true ∧ s.holds "02:00:00:00:00:03".toList [192, 168, 1, 30] = true ∧
    s.Exclusive := by
  have hrun : (run Server.step homeServer homeDay).any (fun s =>
      s.holds "02:00:00:00:00:04".toList [192, 168, 1, 2] && s.holds "02:00:00:00:00:03".toList [192, 168, 1, 30]) = true := by
    decide +kernel
  obtain ⟨s, hs, hheld⟩ := (Option.any_eq_true _ _).1 hrun
  rw [Bool.and_eq_true] at hheld
  exact ⟨s, hs, hheld.1, hheld.2,
    leases_exclusive (by decide +kernel) (by decide +kernel) hs (meets_of_checks (by decide +kernel))⟩

/-- Two clients ask for the same address, which has not been offered to either, and both get it. -/
theorem both_hold : ∃ s, run Server.step (start home [192, 168, 1, 1] [] [] newYear)
      [.message newYear (request 1 [192, 168, 1, 50]) {}, .message newYear (request 2 [192, 168, 1, 50]) {}] = some s ∧
    ¬ s.Exclusive := by
  have hrun : (run Server.step (start home [192, 168, 1, 1] [] [] newYear)
      [.message newYear (request 1 [192, 168, 1, 50]) {}, .message newYear (request 2 [192, 168, 1, 50]) {}]).any (fun s =>
      s.holds "02:00:00:00:00:01".toList [192, 168, 1, 50] && s.holds "02:00:00:00:00:02".toList [192, 168, 1, 50]) = true := by
    decide +kernel
  obtain ⟨s, hs, hheld⟩ := (Option.any_eq_true _ _).1 hrun
  rw [Bool.and_eq_true] at hheld
  exact ⟨s, hs, fun h => absurd (h _ _ _ hheld.1 hheld.2) (by decide)⟩

end Velora.Dhcp
